import UgmeeLua.Chunk.Dump
import UgmeeLua.Chunk.Zread
import UgmeeLua.Lib.Codec

namespace UgmeeLua

open Codec

/-- What ends a load: an error of the chunk, with its message, a read past the end of the buffer, a
string constant whose string is NULL, or (which never happens) a tree that is deeper than the chunk
is long. -/
inductive LoadError where
  | errSyntax (msg : Bytes)
  | fault (e : ZioFault)
  | nullString
  | tooDeep
  deriving DecidableEq, Repr

abbrev Load := Read Zio LoadError

variable {N : Type}

/-- `error`, under the name of the chunk. -/
def undumpError {α : Type} (name : Bytes) (why : String) : Load α :=
  throw (.errSyntax (name ++ bytes ": " ++ bytes why ++ bytes " in precompiled chunk"))

section Load

variable (T : Target N) (name : Bytes)

def loadBlock (size : Nat) : Load Bytes := fun z =>
  match luaZRead z size with
  | .ok s => if s.n = 0 then .ok (s.b, s.z) else undumpError name "unexpected end" s.z
  | .error e => .error (.fault e)

/-- `LoadChar` and `LoadByte`: the callers do not look at the sign of a `char`. -/
def loadChar : Load UInt8 := do
  let b ← loadBlock name 1
  pure (b.headD 0)

def loadInt : Load (BitVec 32) := do
  let b ← loadBlock name 4
  let x := BitVec.ofNat 32 (T.wordOf b)
  if x.toInt < 0 then undumpError name "bad integer" else pure x

def loadNumber : Load N := do
  let b ← loadBlock name 8
  pure (T.numberOf b)

def loadString : Load (Option Bytes) := do
  let b ← loadBlock name 8
  let size := T.wordOf b
  if size = 0 then pure none
  else do
    let s ← loadBlock name size
    pure (some (s.take (size - 1)))

/-- The words of a vector, of four bytes each. -/
def wordsOf : Nat → Bytes → List (BitVec 32)
  | 0, _ => []
  | n + 1, b => .ofNat 32 (T.wordOf (b.take 4)) :: wordsOf n (b.drop 4)

/-- A vector of words behind its length. -/
def loadVector : Load (List (BitVec 32)) := do
  let n ← loadInt T name
  let b ← loadBlock name (n.toNat * 4)
  pure (wordsOf T n.toNat b)

/-- A string that is loaded as a constant. -/
def stringConstant : Option Bytes → Load (TValue N)
  | some s => pure (.string s)
  | none => throw .nullString

def loadConstantOf (t : UInt8) : Load (TValue N) :=
  if t = 0 then pure .nil
  else if t = 1 then do
    let b ← loadChar name
    pure (.boolean (b ≠ 0))
  else if t = 3 then do
    let n ← loadNumber T name
    pure (.number n)
  else if t = 4 then do
    let s ← loadString T name
    stringConstant s
  else undumpError name "bad constant"

def loadConstant : Load (TValue N) := do
  let t ← loadChar name
  loadConstantOf T name t

def loadLocVar : Load LocVar := do
  let varname ← loadString T name
  let startpc ← loadInt T name
  let endpc ← loadInt T name
  pure ⟨varname, startpc, endpc⟩

def loadArray {α : Type} (r : Load α) : Load (List α) := do
  let n ← loadInt T name
  times r n.toNat

def checkCode (f : Prototype N) : Load (Prototype N) :=
  if luaGCheckcode f.toProto then pure f else undumpError name "bad code"

/-- `LoadFunction`, to a depth of nested functions. -/
def loadFunction : Nat → Option Bytes → Load (Prototype N)
  | 0, _ => throw .tooDeep
  | depth + 1, parent => do
    let s ← loadString T name
    let source := s <|> parent
    let linedefined ← loadInt T name
    let lastlinedefined ← loadInt T name
    let nups ← loadChar name
    let numparams ← loadChar name
    let isVararg ← loadChar name
    let maxstacksize ← loadChar name
    let code ← loadVector T name
    let k ← loadArray T name (loadConstant T name)
    let p ← loadArray T name (loadFunction depth source)
    let lineinfo ← loadVector T name
    let locvars ← loadArray T name (loadLocVar T name)
    let upvalues ← loadArray T name (loadString T name)
    checkCode name ⟨source, linedefined, lastlinedefined, nups, numparams, isVararg, maxstacksize,
      code, k, p, lineinfo, locvars, upvalues⟩

def loadHeader : Load Unit := do
  let s ← loadBlock name luacHeadersize
  if s = luaUHeader T then pure () else undumpError name "bad header"

end Load

/-- The name that errors are reported under. -/
def chunkName (name : Bytes) : Bytes :=
  match name with
  | c :: rest =>
    if c = 0x40 ∨ c = 0x3d then rest else if c = 0x1b then bytes "binary string" else name
  | [] => []

/-- The source of a stripped chunk. -/
def strippedSource : Bytes := bytes "=?"

/-- `luaU_undump`; a function takes a byte of the chunk at least, so that the text bounds how deep
they nest. -/
def luaUUndump (T : Target N) (name : Bytes) : Load (Prototype N) := do
  loadHeader T (chunkName name)
  let z ← get
  loadFunction T (chunkName name) (z.p.length + z.reader.flatten.length + 1) (some strippedSource)

end UgmeeLua

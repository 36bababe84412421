import UgmeeLua.Core.Value
import UgmeeLua.Lib.Scatter

namespace UgmeeLua.Ltable

open Scatter

def MAXBITS : Nat := 26

def MAXASIZE : Nat := 2 ^ MAXBITS

/-- `ceillog2`, from the number of bits of `x - 1`. -/
def ceillog2 (x : Nat) : Nat := if x ≤ 1 then 0 else (x - 1).log2 + 1

structure Node (N : Type) where
  val : TValue N
  key : TValue N
  next : Option Nat

/-- `array` has room for `allocated` values; the node vector has `2 ^ lsizenode` nodes, which link to
each other by their index, and `isDummy` says that it is `dummynode`. -/
structure Table (N : Type) where
  array : Nat → TValue N
  allocated : Nat
  sizearray : Nat
  node : Nat → Node N
  isDummy : Bool
  lsizenode : Nat
  lastfree : Nat

/-- Where a value is kept. -/
inductive Slot where
  | array (i : Nat)
  | node (i : Nat)
  deriving DecidableEq, Repr

/-- An error that is raised, memory that is read or written where there is none, or calls nested deeper
than was asked for. -/
inductive Failure where
  | raised (msg : String)
  | undefined
  | tooDeep
  deriving DecidableEq, Repr

variable {N : Type}

namespace Table

variable (t : Table N)

def sizenode : Nat := 2 ^ t.lsizenode

def setNode (i : Nat) (n : Node N) : Table N :=
  { t with node := fun j => if j = i then n else t.node j }

def read : Slot → Except Failure (TValue N)
  | .array i => if i < t.allocated then .ok (t.array i) else .error .undefined
  | .node i => .ok (t.node i).val

/-- The value where a search has come to; `none` is `luaO_nilobject`. -/
def found : Option Slot → Except Failure (TValue N)
  | some s => t.read s
  | none => .ok .nil

def write (v : TValue N) : Slot → Except Failure (Table N)
  | .array i =>
    if i < t.allocated then .ok { t with array := fun j => if j = i then v else t.array j }
    else .error .undefined
  | .node i => .ok (t.setNode i { t.node i with val := v })

end Table

def lmod (s size : Nat) : Nat := s &&& (size - 1)

theorem lmod_lt {s size : Nat} (h : 0 < size) : lmod s size < size := by
  have hle : s &&& (size - 1) ≤ size - 1 := Nat.and_le_right
  unfold lmod
  omega

def hashmod (n size : Nat) : Nat := n % ((size - 1) ||| 1)

section Numbers

variable [LuaNumber N]

/-- `cast_num` of an `int`. -/
def castNum (k : BitVec 32) : N := LuaNumber.ofInteger (k.signExtend 64)

def arrayindex : TValue N → BitVec 32
  | .number n =>
    let k := LuaNumber.toInt n
    if luaiNumeq (castNum k) n then k else -1
  | _ => -1

def luaORawequalObj : TValue N → TValue N → Bool
  | .nil, .nil => true
  | .number a, .number b => luaiNumeq a b
  | .boolean a, .boolean b => a == b
  | .lightuserdata p, .lightuserdata q => p == q
  | .string a, .string b => a == b
  | .table r, .table s => r == s
  | .function r, .function s => r == s
  | .userdata r, .userdata s => r == s
  | .thread r, .thread s => r == s
  | _, _ => false

/-- `ttisnumber(gkey(n)) && luai_numeq(nvalue(gkey(n)), nk)`. -/
def isNum (nk : N) : TValue N → Bool
  | .number n => luaiNumeq n nk
  | _ => false

end Numbers

/-- `ttisstring(gkey(n)) && rawtsvalue(gkey(n)) == key`. -/
def isStr (s : Bytes) : TValue N → Bool
  | .string s' => s' == s
  | _ => false

/-- `mainposition`; `hash` gives the number that the position is made of. -/
def mainposition (hash : TValue N → Nat) (t : Table N) (key : TValue N) : Nat :=
  match key with
  | .string _ | .boolean _ => lmod (hash key) t.sizenode
  | _ => hashmod (hash key) t.sizenode

/-- The loop that goes along a chain. -/
def chainFind (t : Table N) (found : TValue N → Bool) (start : Nat) : Option Slot :=
  (find (fun i => (t.node i).next) (fun i => found (t.node i).key) t.sizenode start).map .node

/-- `getfreepos`, from `lastfree` on down, with what becomes of `lastfree`. -/
def getfreepos (t : Table N) : Nat → Option Nat × Nat
  | 0 => (none, 0)
  | i + 1 => if (t.node i).key.isNil then (some i, i) else getfreepos t i

def setarrayvector (size : Nat) (t : Table N) : Table N :=
  { t with
    array := fun i => if t.sizearray ≤ i ∧ i < size then .nil else t.array i
    allocated := size
    sizearray := size }

def emptyNode : Node N := ⟨.nil, .nil, none⟩

def setnodevector (size : Nat) (t : Table N) : Except Failure (Table N) :=
  if size = 0 then
    .ok { t with node := fun _ => emptyNode, isDummy := true, lsizenode := 0, lastfree := 0 }
  else
    let lsize := ceillog2 size
    if lsize > MAXBITS then .error (.raised "table overflow")
    else .ok { t with
      node := fun _ => emptyNode, isDummy := false, lsizenode := lsize, lastfree := 2 ^ lsize }

/-- `luaH_new`. -/
def luaHNew (narray nhash : Nat) : Except Failure (Table N) :=
  setnodevector nhash
    (setarrayvector narray ⟨fun _ => .nil, 0, 0, fun _ => emptyNode, true, 0, 0⟩)

section Counts

variable [LuaNumber N]

/-- The loop of `computesizes`, with the new size of the array and how many elements go there. -/
def computesizesLoop (nums : Nat → Nat) (narray : Nat) :
    Nat → Nat → Nat → Nat → Nat → Nat → Nat × Nat
  | 0, _, _, _, na, n => (n, na)
  | fuel + 1, i, twotoi, a, na, n =>
    if twotoi / 2 < narray then
      let a' := a + nums i
      let better := nums i > 0 ∧ a' > twotoi / 2
      let n' := if better then twotoi else n
      let na' := if better then a' else na
      if a' = narray then (n', na')
      else computesizesLoop nums narray fuel (i + 1) (twotoi * 2) a' na' n'
    else (n, na)

def computesizes (nums : Nat → Nat) (narray : Nat) : Nat × Nat :=
  computesizesLoop nums narray narray 0 1 0 0 0

/-- `countint`, with `nums` after it. -/
def countint (key : TValue N) (nums : Nat → Nat) : Nat × (Nat → Nat) :=
  let k := (arrayindex key).toInt
  if 0 < k ∧ k ≤ MAXASIZE then
    (1, fun lg => if lg = ceillog2 k.toNat then nums lg + 1 else nums lg)
  else (0, nums)

/-- The loop of `numusearray` over the slices, from the element `i` on. -/
def numusearrayLoop (t : Table N) : List Nat → Nat → Nat → (Nat → Nat) → Nat × (Nat → Nat)
  | [], _, ause, nums => (ause, nums)
  | lg :: lgs, i, ause, nums =>
    let ttlg := 2 ^ lg
    if ttlg > t.sizearray ∧ i > t.sizearray then (ause, nums)
    else
      let lim := min ttlg t.sizearray
      let lc := (List.range' i (lim + 1 - i)).countP fun j => !(t.array (j - 1)).isNil
      numusearrayLoop t lgs (max i (lim + 1)) (ause + lc)
        fun l => if l = lg then nums l + lc else nums l

def numusearray (t : Table N) (nums : Nat → Nat) : Nat × (Nat → Nat) :=
  numusearrayLoop t (List.range (MAXBITS + 1)) 1 0 nums

/-- The loop of `numusehash`: all elements, those that are counted for the array, and `nums`. -/
def numusehashLoop (t : Table N) : List Nat → Nat → Nat → (Nat → Nat) → Nat × Nat × (Nat → Nat)
  | [], totaluse, ause, nums => (totaluse, ause, nums)
  | i :: is, totaluse, ause, nums =>
    if (t.node i).val.isNil then numusehashLoop t is totaluse ause nums
    else
      let (c, nums) := countint (t.node i).key nums
      numusehashLoop t is (totaluse + 1) (ause + c) nums

def numusehash (t : Table N) (nums : Nat → Nat) : Nat × Nat × (Nat → Nat) :=
  numusehashLoop t (List.range t.sizenode).reverse 0 0 nums

/-- The sizes that `rehash` computes for its `resize`. -/
def rehashSizes (t : Table N) (ek : TValue N) : Nat × Nat :=
  let (ause, nums) := numusearray t fun _ => 0
  let (hashuse, hause, nums) := numusehash t nums
  let (c, nums) := countint ek nums
  let (nasize, na) := computesizes nums (ause + hause + c)
  (nasize, ause + hashuse + 1 - na)

end Counts

section Operations

variable [LuaNumber N] (hash : TValue N → Nat)

def luaHGetnum (t : Table N) (key : BitVec 32) : Option Slot :=
  if (key - 1).toNat < t.sizearray then some (.array (key - 1).toNat)
  else
    let nk : N := castNum key
    chainFind t (isNum nk) (mainposition hash t (.number nk))

def luaHGetstr (t : Table N) (key : Bytes) : Option Slot :=
  chainFind t (isStr key) (mainposition hash t (.string key))

/-- The search of `luaH_get` for any key. -/
def luaHGetany (t : Table N) (key : TValue N) : Option Slot :=
  chainFind t (fun k => luaORawequalObj k key) (mainposition hash t key)

/-- `luaH_get`; `none` is `luaO_nilobject`. -/
def luaHGet (t : Table N) (key : TValue N) : Option Slot :=
  match key with
  | .nil => none
  | .string s => luaHGetstr hash t s
  | .number n =>
    let k := LuaNumber.toInt n
    if luaiNumeq (castNum k) n then luaHGetnum hash t k else luaHGetany hash t key
  | _ => luaHGetany hash t key

/-- The value that `luaH_get` leads to. -/
def lookup (t : Table N) (key : TValue N) : Except Failure (TValue N) := t.found (luaHGet hash t key)

/-- `newkey` as the functions that it calls see it. -/
abbrev Newkey (N : Type) := Table N → TValue N → Except Failure (Slot × Table N)

/-- `luaH_set`. -/
def setWith (newkey : Newkey N) (t : Table N) (key : TValue N) : Except Failure (Slot × Table N) :=
  match luaHGet hash t key with
  | some p => .ok (p, t)
  | none =>
    match key with
    | .nil => .error (.raised "table index is nil")
    | .number n =>
      if luaiNumisnan n then .error (.raised "table index is NaN") else newkey t key
    | _ => newkey t key

/-- `luaH_setnum`. -/
def setnumWith (newkey : Newkey N) (t : Table N) (key : BitVec 32) :
    Except Failure (Slot × Table N) :=
  match luaHGetnum hash t key with
  | some p => .ok (p, t)
  | none => newkey t (.number (castNum key))

/-- `luaH_setstr`. -/
def setstrWith (newkey : Newkey N) (t : Table N) (key : Bytes) : Except Failure (Slot × Table N) :=
  match luaHGetstr hash t key with
  | some p => .ok (p, t)
  | none => newkey t (.string key)

/-- The elements of the vanishing slice come back into the table; they are read where the array is by
then. -/
def reinsertArray (newkey : Newkey N) : List Nat → Table N → Except Failure (Table N)
  | [], t => .ok t
  | i :: is, t => do
    let v ← t.read (.array i)
    if v.isNil then reinsertArray newkey is t
    else
      let (s, t) ← setnumWith hash newkey t (BitVec.ofNat 32 (i + 1))
      let v ← t.read (.array i)
      let t ← t.write v s
      reinsertArray newkey is t

/-- The elements of the old hash part come back into the table. -/
def reinsertNodes (newkey : Newkey N) (nold : Nat → Node N) :
    List Nat → Table N → Except Failure (Table N)
  | [], t => .ok t
  | i :: is, t =>
    if (nold i).val.isNil then reinsertNodes newkey nold is t
    else do
      let (s, t) ← setWith hash newkey t (nold i).key
      let t ← t.write (nold i).val s
      reinsertNodes newkey nold is t

/-- What `resize` does where the array part must shrink. -/
def shrinkArray (newkey : Newkey N) (nasize oldasize : Nat) (t : Table N) :
    Except Failure (Table N) :=
  if nasize < oldasize then do
    let t ← reinsertArray hash newkey (List.range' nasize (oldasize - nasize))
      { t with sizearray := nasize }
    .ok { t with allocated := nasize }
  else .ok t

def resize (newkey : Newkey N) (t : Table N) (nasize nhsize : Nat) : Except Failure (Table N) := do
  let oldasize := t.sizearray
  let oldhsize := t.lsizenode
  let nold := t.node
  let t := if nasize > oldasize then setarrayvector nasize t else t
  let t ← setnodevector nhsize t
  let t ← shrinkArray hash newkey nasize oldasize t
  reinsertNodes hash newkey nold (List.range (2 ^ oldhsize)).reverse t

def rehash (newkey : Newkey N) (t : Table N) (ek : TValue N) : Except Failure (Table N) :=
  let (nasize, nhsize) := rehashSizes t ek
  resize hash newkey t nasize nhsize

/-- `gkey(mp) = key`. -/
def putKey (t : Table N) (mp : Nat) (key : TValue N) : Slot × Table N :=
  (.node mp, t.setNode mp { t.node mp with key := key })

/-- The colliding node at `mp` goes to the free position `n`; `othern` is where its chain begins. -/
def moveNode (t : Table N) (mp n othern : Nat) : Table N :=
  let othern := Scatter.before (fun i => (t.node i).next) mp t.sizenode othern
  let t := t.setNode othern { t.node othern with next := some n }
  let t := t.setNode n (t.node mp)
  t.setNode mp { t.node mp with val := .nil, next := none }

/-- The free position `n` is chained after `mp`. -/
def chainNode (t : Table N) (mp n : Nat) : Table N :=
  let t := t.setNode n { t.node n with next := (t.node mp).next }
  t.setNode mp { t.node mp with next := some n }

/-- `newkey`; the calls of `luaH_set` in it go to the `newkey` that is given. -/
def newkeyStep (newkey : Newkey N) (t : Table N) (key : TValue N) :
    Except Failure (Slot × Table N) :=
  let mp := mainposition hash t key
  if !(t.node mp).val.isNil || t.isDummy then
    match getfreepos t t.lastfree with
    | (none, lastfree) => do
      let t ← rehash hash newkey { t with lastfree := lastfree } key
      setWith hash newkey t key
    | (some n, lastfree) =>
      let t := { t with lastfree := lastfree }
      let othern := mainposition hash t (t.node mp).key
      if othern ≠ mp then .ok (putKey (moveNode t mp n othern) mp key)
      else .ok (putKey (chainNode t mp n) n key)
  else .ok (putKey t mp key)

/-- `newkey`, with calls nested as deep as is asked for. -/
def newkey : Nat → Newkey N
  | 0 => fun _ _ => .error .tooDeep
  | depth + 1 => newkeyStep hash (newkey depth)

def luaHSet (depth : Nat) (t : Table N) (key : TValue N) : Except Failure (Slot × Table N) :=
  setWith hash (newkey hash depth) t key

def luaHSetnum (depth : Nat) (t : Table N) (key : BitVec 32) : Except Failure (Slot × Table N) :=
  setnumWith hash (newkey hash depth) t key

def luaHSetstr (depth : Nat) (t : Table N) (key : Bytes) : Except Failure (Slot × Table N) :=
  setstrWith hash (newkey hash depth) t key

def luaHResizearray (depth : Nat) (t : Table N) (nasize : Nat) : Except Failure (Table N) :=
  let nsize := if t.isDummy then 0 else t.sizenode
  resize hash (newkey hash depth) t nasize nsize

end Operations

end UgmeeLua.Ltable

import UgmeeLua.Lexer.LexState
import UgmeeLua.Lgc.Marks
import UgmeeLua.Lib.Buckets
import UgmeeLua.Lib.Stateful
import UgmeeLua.Ltable.Table

namespace UgmeeLua

open Buckets Stateful
open Ltable (lmod)

structure TString where
  addr : Nat
  hash : BitVec 32
  marked : BitVec 8
  str : Bytes
  deriving DecidableEq, Repr

/-- States of the collector, in their order. -/
inductive GCState where
  | GCSpause | GCSpropagate | GCSsweepstring | GCSsweep | GCSfinalize
  deriving DecidableEq, Repr

/-- The string table `strt` (its lists, and the number of strings as a `lu_int32`), with what of the
collector's state bears on it. -/
structure Strings where
  hash : List (List TString)
  nuse : BitVec 32
  currentwhite : BitVec 8
  gcstate : GCState
  sweepstrgc : Nat
  deriving DecidableEq, Repr

/-- An error that is raised: a block too big, or no memory. -/
inductive StringFault where
  | tooBig
  | memory
  deriving DecidableEq, Repr

abbrev Interning (α : Type) := EStateM StringFault Strings α

namespace Strings

def size (g : Strings) : Nat := g.hash.length

/-- The strings in all lists. -/
def chained (g : Strings) : List TString := g.hash.flatten

end Strings

/-- The loop of the hash, for no more than so many steps. -/
def hashFrom (str : Bytes) (step : Nat) : Nat → Nat → BitVec 32 → BitVec 32
  | 0, _, h => h
  | n + 1, l1, h =>
    if step ≤ l1 then
      hashFrom str step n (l1 - step)
        (h ^^^ ((h <<< 5) + (h >>> 2) + BitVec.ofNat 32 (str.getD (l1 - 1) 0).toNat))
    else h

/-- The hash of a string; of a long one not all bytes count. -/
def stringHash (str : Bytes) : BitVec 32 :=
  hashFrom str (str.length / 32 + 1) str.length str.length (BitVec.ofNat 32 str.length)

/-- `luaS_resize`; `vector` tells whether there is memory for the new lists. -/
def luaSResize (newsize : Nat) (vector : Bool) : Interning Unit := do
  let g ← get
  if g.gcstate = .GCSsweepstring then pure ()
  else if vector then
    set { g with hash := rehash (fun ts => lmod ts.hash.toNat newsize) newsize g.hash }
  else throw .memory

/-- `(MAX_SIZET - sizeof(TString))/sizeof(char)`. -/
def maxString : Nat := 2 ^ 64 - 1 - 2 - 24

/-- `newlstr`; `block` is the memory for the string, where there is some. -/
def newlstr (str : Bytes) (h : BitVec 32) (block : Option Nat) (vector : Bool) : Interning Nat :=
  if maxString < str.length + 1 then throw .tooBig
  else
    match block with
    | none => throw .memory
    | some addr => do
      modify fun g =>
        { g with
          hash := push g.hash (lmod h.toNat g.size) ⟨addr, h, luaCWhite g.currentwhite, str⟩,
          nuse := g.nuse + 1 }
      let g ← get
      if g.size < g.nuse.toNat ∧ g.size ≤ maxInt / 2 then do
        luaSResize (g.size * 2) vector
        pure addr
      else pure addr

/-- The search in a list: the string, and the list with the string back to life where it is dead. -/
def findString (currentwhite : BitVec 8) (str : Bytes) : List TString → Option (Nat × List TString)
  | [] => none
  | ts :: l =>
    if ts.str = str then
      some (ts.addr,
        (if isdead currentwhite ts.marked then { ts with marked := changewhite ts.marked } else ts) :: l)
    else (findString currentwhite str l).map fun r => (r.1, ts :: r.2)

/-- `luaS_newlstr`. -/
def luaSNewlstr (str : Bytes) (block : Option Nat) (vector : Bool) : Interning Nat := do
  let g ← get
  let i := lmod (stringHash str).toNat g.size
  match findString g.currentwhite str (g.hash.getD i []) with
  | some r => do
    set { g with hash := g.hash.modify i fun _ => r.2 }
    pure r.1
  | none => newlstr str (stringHash str) block vector

/-- `sweeplist` on a list of strings. -/
def sweeplist (currentwhite : BitVec 8) (l : List TString) : List TString :=
  (l.filter fun ts => survives currentwhite ts.marked).map fun ts =>
    { ts with marked := makewhite currentwhite ts.marked }

/-- A list of strings is swept, and `freeobj` counts the strings that are freed. -/
def sweepAt (i : Nat) (g : Strings) : Strings :=
  let l := g.hash.getD i []
  let l' := sweeplist g.currentwhite l
  { g with hash := g.hash.modify i fun _ => l', nuse := g.nuse - BitVec.ofNat 32 (l.length - l'.length) }

/-- `singlestep` in `GCSsweepstring`. -/
def sweepstring : Interning Unit :=
  modify fun g =>
    let g := sweepAt g.sweepstrgc g
    { g with
      sweepstrgc := g.sweepstrgc + 1,
      gcstate := if g.size ≤ g.sweepstrgc + 1 then .GCSsweep else g.gcstate }

def MINSTRTABSIZE : Nat := 32

/-- `checkSizes`. -/
def checkSizes (vector : Bool) : Interning Unit := do
  let g ← get
  if g.nuse.toNat < g.size / 4 ∧ MINSTRTABSIZE * 2 < g.size then luaSResize (g.size / 2) vector
  else pure ()

/-- The end of `GCSsweep`. -/
def endsweep (vector : Bool) : Interning Unit := do
  checkSizes vector
  modify fun g => { g with gcstate := .GCSfinalize }

/-- The marks of a string are changed. -/
def remark (addr : Nat) (f : BitVec 8 → BitVec 8) : Interning Unit :=
  modify fun g => { g with hash := g.hash.map fun l => l.map fun ts =>
    if ts.addr = addr then { ts with marked := f ts.marked } else ts }

/-- `stringmark`. -/
def stringmark (addr : Nat) : Interning Unit := remark addr white2gray

/-- `luaS_fix`. -/
def luaSFix (addr : Nat) : Interning Unit := remark addr (· ||| bitmask FIXEDBIT)

/-- The end of `atomic`. -/
def flip : Interning Unit :=
  modify fun g => { g with
    currentwhite := otherwhite g.currentwhite, sweepstrgc := 0, gcstate := .GCSsweepstring }

/-- `luaC_fullgc` makes a sweep of its own. -/
def restart : Interning Unit := modify fun g => { g with sweepstrgc := 0, gcstate := .GCSsweepstring }

def setGCState (s : GCState) : Interning Unit := modify fun g => { g with gcstate := s }

/-- What `luaC_freeall` does to the string table. -/
def luaCFreeall : Interning Unit :=
  modify fun g =>
    (List.range g.size).foldl (fun g i => sweepAt i g)
      { g with currentwhite := WHITEBITS ||| bitmask SFIXEDBIT }

/-- What happens to strings. -/
inductive StringOp where
  | newlstr (str : Bytes) (block : Option Nat) (vector : Bool)
  | resize (newsize : Nat) (vector : Bool)
  | mark (addr : Nat)
  | fix (addr : Nat)
  | markroot
  | atomic
  | restart
  | sweepstring
  | endsweep (vector : Bool)
  | endfinalize
  | freeall
  deriving DecidableEq, Repr

namespace StringOp

def exec : StringOp → Interning Unit
  | newlstr str block vector => luaSNewlstr str block vector >>= fun _ => pure ()
  | resize newsize vector => luaSResize newsize vector
  | mark addr => stringmark addr
  | fix addr => luaSFix addr
  | markroot => setGCState .GCSpropagate
  | atomic => flip
  | restart => UgmeeLua.restart
  | sweepstring => UgmeeLua.sweepstring
  | endsweep vector => UgmeeLua.endsweep vector
  | endfinalize => setGCState .GCSpause
  | freeall => luaCFreeall

/-- Where an operation takes place: the allocator returns a block that is not in use, and each step of
the collector has its state. -/
def Allowed (g : Strings) : StringOp → Prop
  | newlstr _ block _ => ∀ addr, block = some addr → ∀ ts ∈ g.chained, ts.addr ≠ addr
  | resize newsize _ => 0 < newsize
  | mark _ => True
  | fix _ => True
  | markroot => g.gcstate = .GCSpause ∨ g.gcstate = .GCSfinalize
  | atomic => g.gcstate = .GCSpropagate
  | restart => g.gcstate = .GCSpause ∨ g.gcstate = .GCSpropagate
  | sweepstring => g.gcstate = .GCSsweepstring
  | endsweep _ => g.gcstate = .GCSsweep
  | endfinalize => g.gcstate = .GCSfinalize
  | freeall => True

/-- The collector turns the whites round, or frees everything. -/
def Turns : StringOp → Prop
  | atomic => True
  | freeall => True
  | _ => False

end StringOp

/-- An operation leads from one state to another, also where it raises an error. -/
def StringStep (op : StringOp) (g g' : Strings) : Prop :=
  OneWhite g.currentwhite ∧ op.Allowed g ∧ (op.exec g = .ok () g' ∨ ∃ e, op.exec g = .error e g')

/-- The string table when `f_luaopen` has given it its first size. -/
def Strings.start : Strings :=
  ⟨List.replicate MINSTRTABSIZE [], 0, bitmask WHITE0BIT ||| bitmask FIXEDBIT, .GCSpause, 0⟩

/-- States after any operations, in any order. -/
inductive Strings.Reached : Strings → Prop where
  | start : Reached .start
  | step {op : StringOp} {g g' : Strings} (h : Reached g) (hs : StringStep op g g') : Reached g'

/-- States after operations that do not turn the whites round. -/
inductive SameCycle (g : Strings) : Strings → Prop where
  | refl : SameCycle g g
  | step {op : StringOp} {g' g'' : Strings} (h : SameCycle g g') (hop : ¬ op.Turns)
    (hs : StringStep op g' g'') :
      SameCycle g g''

end UgmeeLua

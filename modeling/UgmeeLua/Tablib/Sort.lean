import Mathlib.Logic.Equiv.Basic
import UgmeeLua.Lib.Stateful
import UgmeeLua.Tablib.Remove

namespace UgmeeLua.Tablib

open Stateful

/-- What a run of `auxsort` does: it reads and writes elements, and gets an answer for an element that it
comes to on the way up to `u`. -/
inductive Event where
  | read (i : Int)
  | write (i : Int)
  | up (u i : Int) (answer : Bool)
  deriving DecidableEq, Repr

/-- A table that is being sorted, with what has been done to it, the last first, and what the comparison
function keeps. -/
structure Sorting (V σ : Type) where
  t : Int → V
  log : List Event
  o : σ

/-- How `auxsort` ends without a result: `luaL_error(L, "invalid order function for sorting")`, or not at
all with the passes that it is given. -/
inductive SortFault where
  | invalid
  | stuck
  deriving DecidableEq, Repr

abbrev Sorter (V σ α : Type) := EStateM SortFault (Sorting V σ) α

/-- A comparison function, which may look at the table and change it. -/
abbrev Comparison (V σ : Type) := V → V → (Int → V) → σ → Bool × (Int → V) × σ

variable {V σ : Type}

def note (e : Event) : Sorter V σ Unit := modify fun s => ⟨s.t, e :: s.log, s.o⟩

/-- `lua_rawgeti(L, 1, i)`. -/
def rawgeti (i : Int) : Sorter V σ V := do
  note (.read i)
  let s ← get
  pure (s.t i)

/-- `lua_rawseti(L, 1, i)`. -/
def rawseti (i : Int) (v : V) : Sorter V σ Unit := do
  note (.write i)
  modify fun s => ⟨Function.update s.t i v, s.log, s.o⟩

/-- `set2`; `x` is the value on the top of the stack. -/
def set2 (i j : Int) (x y : V) : Sorter V σ Unit := do
  rawseti i x
  rawseti j y

section Code

-- the second argument of `sort`, or `lua_lessthan`
variable (less : Comparison V σ)

def sortComp (a b : V) : Sorter V σ Bool :=
  modifyGet fun s => ((less a b s.t s.o).1, ⟨(less a b s.t s.o).2.1, s.log, (less a b s.t s.o).2.2⟩)

/-- `a[l]` and `a[u]` are put in order. -/
def sortEnds (l u : Int) : Sorter V σ Unit := do
  let al ← rawgeti l
  let au ← rawgeti u
  if ← sortComp less au al then set2 l u au al else pure ()

/-- `a[i]` is put between `a[l]` and `a[u]`. -/
def sortMiddle (l i u : Int) : Sorter V σ Unit := do
  let ai ← rawgeti i
  let al ← rawgeti l
  if ← sortComp less ai al then set2 i l al ai
  else do
    let au ← rawgeti u
    if ← sortComp less au ai then set2 i u au ai else pure ()

/-- The pivot, `a[i]`, is exchanged with `a[u-1]`. -/
def takePivot (i u : Int) : Sorter V σ V := do
  let p ← rawgeti i
  let b ← rawgeti (u - 1)
  set2 i (u - 1) b p
  pure p

/-- Repeat `++i` until `a[i] >= p`. -/
def scanUp (p : V) (u : Int) : Nat → Int → Sorter V σ (Int × V)
  | 0, _ => throw .stuck
  | n + 1, i => do
    let v ← rawgeti (i + 1)
    let answer ← sortComp less v p
    note (.up u (i + 1) answer)
    if answer then
      if u < i + 1 then throw .invalid else scanUp p u n (i + 1)
    else pure (i + 1, v)

/-- Repeat `--j` until `a[j] <= p`. -/
def scanDown (p : V) (l : Int) : Nat → Int → Sorter V σ (Int × V)
  | 0, _ => throw .stuck
  | n + 1, j => do
    let v ← rawgeti (j - 1)
    let answer ← sortComp less p v
    if answer then
      if j - 1 < l then throw .invalid else scanDown p l n (j - 1)
    else pure (j - 1, v)

/-- The loop of the partition, with the place that it finds for the pivot. -/
def partitionLoop (p : V) (l u : Int) : Nat → Int → Int → Sorter V σ Int
  | 0, _, _ => throw .stuck
  | n + 1, i, j => do
    let up ← scanUp less p u (u + 2 - i).toNat i
    let down ← scanDown less p l (j + 2 - l).toNat j
    if down.1 < up.1 then pure up.1
    else do
      set2 up.1 down.1 down.2 up.2
      partitionLoop p l u n up.1 down.1

/-- The pivot is exchanged with `a[i]`. -/
def placePivot (i u : Int) : Sorter V σ Unit := do
  let p ← rawgeti (u - 1)
  let ai ← rawgeti i
  set2 (u - 1) i ai p

/-- The body of the loop of `auxsort`, up to the place of the pivot; two and three elements need none. -/
def sortPass (l u : Int) : Sorter V σ (Option Int) := do
  sortEnds less l u
  if u - l = 1 then pure none
  else do
    let i := (l + u) / 2
    sortMiddle less l i u
    if u - l = 2 then pure none
    else do
      let p ← takePivot i u
      let i ← partitionLoop less p l u (u - l + 1).toNat l (u - 1)
      placePivot i u
      pure (some i)

/-- `auxsort`, first on the smaller half, then on the larger one. Indices are `int`s; a table does not hold
the 2^30 elements that it takes for a sum of two of them to overflow. -/
def auxsort : Nat → Int → Int → Sorter V σ Unit
  | 0, _, _ => throw .stuck
  | n + 1, l, u =>
    if l < u then do
      match ← sortPass less l u with
      | none => pure ()
      | some i =>
        if i - l < u - i then do
          let j := l
          let i := i - 1
          let l := i + 2
          auxsort n j i
          auxsort n l u
        else do
          let j := i + 1
          let i := u
          let u := j - 2
          auxsort n j i
          auxsort n l u
    else pure ()

/-- `sort`, of `n` elements: the error that is raised, if there is one, and what has been done. -/
def sort (n : Nat) (f : Int → V) (o : σ) (fuel : Nat) : Option SortFault × Sorting V σ :=
  match auxsort less fuel 1 n ⟨f, [], o⟩ with
  | .ok _ s => (none, s)
  | .error e s => (some e, s)

end Code

end UgmeeLua.Tablib

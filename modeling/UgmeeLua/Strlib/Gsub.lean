import UgmeeLua.Strlib.Find

namespace UgmeeLua.Strlib

/-- A value that a function or a table gives for a match: `nil` or `false`, a string or a number with
its text, or anything else with the name of its type. -/
inductive ReplValue where
  | falsy
  | text (s : Bytes)
  | other (typename : String)
  deriving DecidableEq, Repr

/-- The third argument of `gsub`; a function or a table may change the state of the interpreter, or
raise an error. -/
inductive Replacement (σ : Type) where
  | text (news : Bytes)
  | function (call : σ → List Pushed → Except MatchError (ReplValue × σ))
  | table (gettable : σ → Pushed → Except MatchError (ReplValue × σ))
  | other

section Gsub

variable {σ : Type} (number2str : Nat → Bytes) (src : Bytes)

/-- The text that `luaL_addvalue` adds. -/
def Pushed.addvalue : Pushed → Bytes
  | .nil => []
  | .integer n => number2str n
  | .lstring s => s

/-- The text that stands from `s` to `e` in the subject. -/
def piece (s e : Nat) : Bytes := (src.drop s).take (e - s)

/-- What `add_s` adds for the rest of the replacement string. -/
def addS (ms : MatchState) (s e : Nat) : Bytes → Except MatchError Bytes
  | [] => .ok []
  | c :: news =>
    if c ≠ L_ESC then (addS ms s e news).map (c :: ·)
    else
      match news with
      -- the NUL that ends the replacement string is added
      | [] => .ok [0]
      | d :: news =>
        if !isdigit d then (addS ms s e news).map (d :: ·)
        else if d = ch '0' then (addS ms s e news).map (piece src s e ++ ·)
        else do
          let v ← pushOnecapture src ms (d - ch '1').toNat s e
          (addS ms s e news).map (v.addvalue number2str ++ ·)

/-- The end of `add_value`, for what a function or a table gave. -/
def addResult (s e : Nat) (r : ReplValue × σ) : Except MatchError (Bytes × σ) :=
  match r.1 with
  | .falsy => .ok (piece src s e, r.2)
  | .text t => .ok (t, r.2)
  | .other typename => .error (.raised s!"invalid replacement value (a {typename})")

def addValue (repl : Replacement σ) (ms : MatchState) (st : σ) (s e : Nat) :
    Except MatchError (Bytes × σ) :=
  match repl with
  | .text news => (addS number2str src ms s e news).map fun t => (t, st)
  | .function call => do
    let captures ← pushCaptures src ms (some (s, e))
    let r ← call st captures
    addResult src s e r
  | .table gettable => do
    let key ← pushOnecapture src ms 0 s e
    let r ← gettable st key
    addResult src s e r
  | .other => .error (.raised "string/function/table expected")

structure GsubState (σ : Type) where
  n : Nat
  ms : MatchState
  st : σ
  src : Nat
  b : Bytes

/-- `if (e) { n++; add_value(...); }`. -/
def addMatch (repl : Replacement σ) (g : GsubState σ) : Option Nat → Except MatchError (GsubState σ)
  | some e => do
    let (text, st) ← addValue number2str src repl g.ms g.st g.src e
    .ok { g with n := g.n + 1, b := g.b ++ text, st := st }
  | none => .ok g

variable (pat : CString) (p : Nat) (anchor : Bool) (maxS : Int) (repl : Replacement σ)

/-- The loop of `str_gsub`. -/
def gsubLoop : Nat → GsubState σ → Except MatchError (GsubState σ)
  | 0, _ => .error .stuck
  | k + 1, g =>
    if (g.n : Int) < maxS then do
      let (e, ms) ← doMatch src pat (pat.bytes.length + 1) { g.ms with level := 0 } g.src p
      let g ← addMatch number2str src repl { g with ms := ms } e
      let next := fun g => if anchor then .ok g else gsubLoop k g
      if e.any (g.src < ·) then next { g with src := e.getD g.src }
      else if g.src < src.length then
        next { g with src := g.src + 1, b := g.b ++ [src.getD g.src 0] }
      else .ok g
    else .ok g

/-- `str_gsub`, which gives the new string and the number of substitutions. The match state is not
initialised. -/
def strGsub (src p : Bytes) (repl : Replacement σ) (maxS : Option Int) (ms : MatchState) (st : σ) :
    Except MatchError (Bytes × Nat × σ) := do
  let pat := CString.ofBytes p
  let maxS := toCInt (maxS.getD (src.length + 1))
  let anchor := anchored pat
  let g ← gsubLoop number2str src pat anchor.toNat anchor maxS repl (src.length + 1)
    ⟨0, ms, st, 0, []⟩
  .ok (g.b ++ src.drop g.src, g.n, g.st)

end Gsub

end UgmeeLua.Strlib

import Mathlib.Data.List.TakeWhile
import UgmeeLua.Strlib.Match

namespace UgmeeLua.Strlib

/-- What a function of the library gives back to Lua. -/
inductive Pushed where
  | nil
  | integer (n : Nat)
  | lstring (s : Bytes)
  deriving DecidableEq, Repr

/-- The bytes before the first NUL. -/
def CString.ofBytes (p : Bytes) : CString :=
  ⟨p.takeWhile (· ≠ 0), fun h => by simpa using List.mem_takeWhile_imp h⟩

def SPECIALS : Bytes := bytes "^$*+?.([%-"

/-- `strpbrk`, for the position of the first character that is accepted. -/
def strpbrk (p accept : Bytes) : Option Nat := p.findIdx? (accept.contains ·)

/-! ## Plain search -/

/-- `memchr` on `n` bytes from `s` on. -/
def memchr (b : Bytes) (s : Nat) (c : UInt8) (n : Nat) : Except MatchError (Option Nat) :=
  if s + n ≤ b.length then .ok ((((b.drop s).take n).findIdx? (· = c)).map (s + ·))
  else .error .outside

/-- Whether `memcmp` is zero on `n` bytes from `i` and `j` on. -/
def memcmp (b b' : Bytes) (i j n : Nat) : Except MatchError Bool :=
  if i + n ≤ b.length ∧ j + n ≤ b'.length then .ok ((b.drop i).take n = (b'.drop j).take n)
  else .error .outside

def lmemfindLoop (s1 s2 : Bytes) (l2 : Nat) : Nat → Nat → Nat → Except MatchError (Option Nat)
  | 0, _, _ => .error .stuck
  | n + 1, s, l1 =>
    if 0 < l1 then do
      match ← memchr s1 s (s2.getD 0 0) l1 with
      | none => .ok none
      | some init => do
        let init := init + 1
        let same ← memcmp s1 s2 init 1 l2
        -- the first character is already checked
        if same then .ok (some (init - 1)) else lmemfindLoop s1 s2 l2 n init (l1 - (init - s))
    else .ok none

/-- `lmemfind`; pointers are distances from `s1`. -/
def lmemfind (s1 s2 : Bytes) : Except MatchError (Option Nat) :=
  if s2.length = 0 then .ok (some 0)
  else if s1.length < s2.length then .ok none
  else lmemfindLoop s1 s2 (s2.length - 1) (s1.length + 1) 0 (s1.length - (s2.length - 1))

/-! ## Captures -/

section Push

variable (src : Bytes) (ms : MatchState)

def pushOnecapture (i s e : Nat) : Except MatchError Pushed :=
  if ms.level ≤ i then
    if i = 0 then .ok (.lstring ((src.drop s).take (e - s)))
    else .error (.raised "invalid capture index")
  else
    match (ms.capture i).len with
    | .unfinished => .error (.raised "unfinished capture")
    | .position => .ok (.integer ((ms.capture i).init + 1))
    | .len l => .ok (.lstring ((src.drop (ms.capture i).init).take l))

/-- `push_captures`, which is given the whole match or a null pointer. -/
def pushCaptures (whole : Option (Nat × Nat)) : Except MatchError (List Pushed) :=
  let nlevels := if ms.level = 0 ∧ whole.isSome then 1 else ms.level
  let (s, e) := whole.getD (0, 0)
  (List.range nlevels).mapM fun i => pushOnecapture src ms i s e

end Push

/-! ## `str_find_aux` -/

/-- `posrelat`: a negative position means back from the end. -/
def posrelat (pos : Int) (len : Nat) : Int := if 0 ≤ pos then pos else len + pos + 1

/-- Where a search begins. -/
def findInit (src : Bytes) (pos : Int) : Nat :=
  let init := posrelat pos src.length - 1
  if init < 0 then 0 else if src.length < init.toNat then src.length else init.toNat

def findPlain (src p : Bytes) (init : Nat) : Except MatchError (List Pushed) := do
  match ← lmemfind (src.drop init) p with
  | some s2 => .ok [.integer (init + s2 + 1), .integer (init + s2 + p.length)]
  | none => .ok [.nil]

/-- The loop of `str_find_aux`, which gives the start and the end of a match. -/
def findLoop (src : Bytes) (pat : CString) (p : Nat) (anchor : Bool) :
    Nat → MatchState → Nat → Except MatchError (Option (Nat × Nat) × MatchState)
  | 0, _, _ => .error .stuck
  | n + 1, ms, s1 => do
    let (res, ms) ← doMatch src pat (pat.bytes.length + 1) { ms with level := 0 } s1 p
    match res with
    | some e => .ok (some (s1, e), ms)
    | none =>
      if s1 < src.length ∧ !anchor then findLoop src pat p anchor n ms (s1 + 1)
      else .ok (none, ms)

/-- `*p == '^'`; the pattern then begins behind it. -/
def anchored (pat : CString) : Bool := pat.bytes.head? = some (ch '^')

def findPattern (find : Bool) (src : Bytes) (pat : CString) (ms : MatchState) (init : Nat) :
    Except MatchError (List Pushed) := do
  let anchor := anchored pat
  let (res, ms) ← findLoop src pat anchor.toNat anchor (src.length + 1) ms init
  match res with
  | some (s1, e) =>
    if find then do
      let captures ← pushCaptures src ms none
      .ok (.integer (s1 + 1) :: .integer e :: captures)
    else pushCaptures src ms (some (s1, e))
  | none => .ok [.nil]

/-- `str_find_aux`; `plain` is the explicit request. The match state is not initialised. -/
def strFindAux (find plain : Bool) (src p : Bytes) (pos : Int) (ms : MatchState) :
    Except MatchError (List Pushed) :=
  if find && (plain || (strpbrk (CString.ofBytes p).bytes SPECIALS).isNone) then
    findPlain src p (findInit src pos)
  else findPattern find src (CString.ofBytes p) ms (findInit src pos)

end UgmeeLua.Strlib

import UgmeeLua.Lexer.LexState

namespace UgmeeLua.Strlib

def isgraph (c : UInt8) : Bool := 33 ≤ c && c ≤ 126
def islower (c : UInt8) : Bool := 97 ≤ c && c ≤ 122
def isupper (c : UInt8) : Bool := 65 ≤ c && c ≤ 90
def ispunct (c : UInt8) : Bool := isgraph c && !isalnum c
def isxdigit (c : UInt8) : Bool := isdigit c || (65 ≤ c && c ≤ 70) || (97 ≤ c && c ≤ 102)
def tolower (c : UInt8) : UInt8 := if isupper c then c + 32 else c

/-- Bytes without a NUL, as they stand before the NUL that ends a C string. -/
structure CString where
  bytes : Bytes
  nonul : 0 ∉ bytes

/-- How matching stops short: with an error of the pattern, at a byte outside of the pattern or the
subject, or after more passes than were asked for. -/
inductive MatchError where
  | raised (msg : String)
  | outside
  | stuck
  deriving DecidableEq, Repr

/-- The length of a capture, `CAP_UNFINISHED` and `CAP_POSITION` included. -/
inductive CapLen where
  | unfinished
  | position
  | len (n : Nat)
  deriving DecidableEq, Repr

structure Capture where
  init : Nat
  len : CapLen
  deriving DecidableEq, Repr

/-- The members of `MatchState` that change; pointers are distances from `src_init`. -/
structure MatchState where
  level : Nat
  capture : Nat → Capture

def LUA_MAXCAPTURES : Nat := 32

def L_ESC : UInt8 := ch '%'

def matchClass (c cl : UInt8) : Bool :=
  let lower := tolower cl
  let res :=
    if lower = ch 'a' then some (isalpha c)
    else if lower = ch 'c' then some (iscntrl c)
    else if lower = ch 'd' then some (isdigit c)
    else if lower = ch 'l' then some (islower c)
    else if lower = ch 'p' then some (ispunct c)
    else if lower = ch 's' then some (isspace c)
    else if lower = ch 'u' then some (isupper c)
    else if lower = ch 'w' then some (isalnum c)
    else if lower = ch 'x' then some (isxdigit c)
    else if lower = ch 'z' then some (c = 0)
    else none
  match res with
  | some res => if islower cl then res else !res
  | none => cl = c

/-- A byte of the subject, or the NUL at `src_end`. -/
def srcAt (src : Bytes) (s : Nat) : Except MatchError UInt8 :=
  if s ≤ src.length then .ok (src.getD s 0) else .error .outside

/-- A byte of the pattern, or the NUL that ends it. -/
def patAt (pat : CString) (p : Nat) : Except MatchError UInt8 :=
  if p ≤ pat.bytes.length then .ok (pat.bytes.getD p 0) else .error .outside

/-- `memcmp` of two pieces of the subject, whether it is zero. -/
def memeq (src : Bytes) (i j n : Nat) : Except MatchError Bool :=
  if i + n ≤ src.length ∧ j + n ≤ src.length then
    .ok ((src.drop i).take n = (src.drop j).take n)
  else .error .outside

section Classes

variable (pat : CString)

/-- The loop of `classend`, which looks for a `]`. -/
def classendLoop : Nat → Nat → Except MatchError Nat
  | 0, _ => .error .stuck
  | n + 1, p => do
    let c ← patAt pat p
    if c = 0 then .error (.raised "malformed pattern (missing ']')")
    else do
      let next ← patAt pat (p + 1)
      -- an escape is skipped, such as `%]`
      let p := if c = L_ESC ∧ next ≠ 0 then p + 2 else p + 1
      let c ← patAt pat p
      if c ≠ ch ']' then classendLoop n p else .ok (p + 1)

def classend (p : Nat) : Except MatchError Nat := do
  let c ← patAt pat p
  if c = L_ESC then do
    let next ← patAt pat (p + 1)
    if next = 0 then .error (.raised "malformed pattern (ends with '%')") else .ok (p + 2)
  else if c = ch '[' then do
    let next ← patAt pat (p + 1)
    classendLoop pat (pat.bytes.length + 1) (if next = ch '^' then p + 2 else p + 1)
  else .ok (p + 1)

/-- The loop of `matchbracketclass`, `while (++p < ec)`. -/
def matchbracketLoop (c : UInt8) (ec : Nat) (sig : Bool) : Nat → Nat → Except MatchError Bool
  | 0, _ => .error .stuck
  | n + 1, p =>
    let p := p + 1
    if p < ec then do
      let a ← patAt pat p
      if a = L_ESC then do
        let cl ← patAt pat (p + 1)
        if matchClass c cl then .ok sig else matchbracketLoop c ec sig n (p + 1)
      else do
        let next ← patAt pat (p + 1)
        if next = ch '-' ∧ p + 2 < ec then do
          let hi ← patAt pat (p + 2)
          if a ≤ c ∧ c ≤ hi then .ok sig else matchbracketLoop c ec sig n (p + 2)
        else if a = c then .ok sig
        else matchbracketLoop c ec sig n p
    else .ok (!sig)

def matchbracketclass (c : UInt8) (p ec : Nat) : Except MatchError Bool := do
  let next ← patAt pat (p + 1)
  if next = ch '^' then matchbracketLoop pat c ec false (ec + 1) (p + 1)
  else matchbracketLoop pat c ec true (ec + 1) p

def singlematch (c : UInt8) (p ep : Nat) : Except MatchError Bool := do
  let a ← patAt pat p
  if a = ch '.' then .ok true
  else if a = L_ESC then do
    let cl ← patAt pat (p + 1)
    .ok (matchClass c cl)
  else if a = ch '[' then matchbracketclass pat c p (ep - 1)
  else .ok (a = c)

end Classes

/-- `match` as the functions that it calls see it. -/
abbrev Matcher := MatchState → Nat → Nat → Except MatchError (Option Nat × MatchState)

section Captures

variable (src : Bytes)

/-- `check_capture`, which is given a digit. -/
def checkCapture (ms : MatchState) (l : UInt8) : Except MatchError Nat :=
  if l < ch '1' ∨ ms.level ≤ (l - ch '1').toNat ∨
      (ms.capture (l - ch '1').toNat).len = .unfinished then
    .error (.raised "invalid capture index")
  else .ok (l - ch '1').toNat

/-- The loop of `capture_to_close`, from a level down. -/
def captureToClose (ms : MatchState) : Nat → Except MatchError Nat
  | 0 => .error (.raised "invalid pattern capture")
  | l + 1 => if (ms.capture l).len = .unfinished then .ok l else captureToClose ms l

def MatchState.setCapture (ms : MatchState) (l : Nat) (c : Capture) : MatchState :=
  { ms with capture := fun i => if i = l then c else ms.capture i }

def startCapture (m : Matcher) (ms : MatchState) (s p : Nat) (what : CapLen) :
    Except MatchError (Option Nat × MatchState) :=
  if LUA_MAXCAPTURES ≤ ms.level then .error (.raised "too many captures")
  else do
    let (res, ms) ← m { ms.setCapture ms.level ⟨s, what⟩ with level := ms.level + 1 } s p
    match res with
    | none => .ok (none, { ms with level := ms.level - 1 })
    | some e => .ok (some e, ms)

def endCapture (m : Matcher) (ms : MatchState) (s p : Nat) :
    Except MatchError (Option Nat × MatchState) := do
  let l ← captureToClose ms ms.level
  let init := (ms.capture l).init
  let (res, ms) ← m (ms.setCapture l ⟨init, .len (s - init)⟩) s p
  match res with
  | none => .ok (none, ms.setCapture l ⟨(ms.capture l).init, .unfinished⟩)
  | some e => .ok (some e, ms)

/-- `match_capture`. The length of a position capture, as a `size_t`, is more than there is of any
subject. -/
def matchCapture (ms : MatchState) (s : Nat) (l : UInt8) : Except MatchError (Option Nat) := do
  let l ← checkCapture ms l
  match (ms.capture l).len with
  | .len n =>
    if n ≤ src.length - s then do
      let same ← memeq src (ms.capture l).init s n
      .ok (if same then some (s + n) else none)
    else .ok none
  | _ => .ok none

end Captures

section Match

variable (src : Bytes) (pat : CString)

/-- `s < ms->src_end && singlematch(uchar(*s), p, ep)`. -/
def singlematchAt (s p ep : Nat) : Except MatchError Bool :=
  if s < src.length then do
    let c ← srcAt src s
    singlematch pat c p ep
  else .ok false

/-- The loop of `matchbalance`, `while (++s < ms->src_end)`. -/
def balanceLoop (b e : UInt8) : Nat → Nat → Nat → Except MatchError (Option Nat)
  | 0, _, _ => .error .stuck
  | n + 1, cont, s =>
    let s := s + 1
    if s < src.length then do
      let c ← srcAt src s
      if c = e then
        if cont = 1 then .ok (some (s + 1)) else balanceLoop b e n (cont - 1) s
      else if c = b then balanceLoop b e n (cont + 1) s
      else balanceLoop b e n cont s
    else .ok none

def matchbalance (s p : Nat) : Except MatchError (Option Nat) := do
  let b ← patAt pat p
  if b = 0 then .error (.raised "unbalanced pattern")
  else do
    let e ← patAt pat (p + 1)
    if e = 0 then .error (.raised "unbalanced pattern")
    else do
      let c ← srcAt src s
      if c ≠ b then .ok none else balanceLoop src b e (src.length + 1) 1 s

/-- The first loop of `max_expand`. -/
def maxExpandCount (s p ep : Nat) : Nat → Nat → Except MatchError Nat
  | 0, _ => .error .stuck
  | n + 1, i => do
    let more ← singlematchAt src pat (s + i) p ep
    if more then maxExpandCount s p ep n (i + 1) else .ok i

/-- The second loop of `max_expand`. -/
def maxExpandTry (m : Matcher) (s p : Nat) :
    Nat → MatchState → Except MatchError (Option Nat × MatchState)
  | 0, ms => m ms s p
  | i + 1, ms => do
    let (res, ms) ← m ms (s + (i + 1)) p
    match res with
    | some e => .ok (some e, ms)
    | none => maxExpandTry m s p i ms

def maxExpand (m : Matcher) (ms : MatchState) (s p ep : Nat) :
    Except MatchError (Option Nat × MatchState) := do
  let i ← maxExpandCount src pat s p ep (src.length + 1) 0
  maxExpandTry m s (ep + 1) i ms

/-- The loop of `min_expand`. -/
def minExpandLoop (m : Matcher) (p ep : Nat) :
    Nat → MatchState → Nat → Except MatchError (Option Nat × MatchState)
  | 0, _, _ => .error .stuck
  | n + 1, ms, s => do
    let (res, ms) ← m ms s (ep + 1)
    match res with
    | some e => .ok (some e, ms)
    | none => do
      let more ← singlematchAt src pat s p ep
      if more then minExpandLoop m p ep n ms (s + 1) else .ok (none, ms)

def minExpand (m : Matcher) (ms : MatchState) (s p ep : Nat) :
    Except MatchError (Option Nat × MatchState) :=
  minExpandLoop src pat m p ep (src.length + 1) ms s

/-- `match` at `dflt`. -/
def matchItem (m : Matcher) (ms : MatchState) (s p : Nat) :
    Except MatchError (Option Nat × MatchState) := do
  let ep ← classend pat p
  let one ← singlematchAt src pat s p ep
  let c ← patAt pat ep
  if c = ch '?' then
    if one then do
      let (res, ms) ← m ms (s + 1) (ep + 1)
      match res with
      | some e => .ok (some e, ms)
      | none => m ms s (ep + 1)
    else m ms s (ep + 1)
  else if c = ch '*' then maxExpand src pat m ms s p ep
  else if c = ch '+' then if one then maxExpand src pat m ms (s + 1) p ep else .ok (none, ms)
  else if c = ch '-' then minExpand src pat m ms s p ep
  else if one then m ms (s + 1) ep
  else .ok (none, ms)

/-- The byte before a position of the subject; before the first one it is a NUL. -/
def previousAt (s : Nat) : Except MatchError UInt8 := if s = 0 then .ok 0 else srcAt src (s - 1)

def matchFrontier (m : Matcher) (ms : MatchState) (s p : Nat) :
    Except MatchError (Option Nat × MatchState) := do
  let c ← patAt pat p
  if c ≠ ch '[' then .error (.raised "missing '[' after '%f' in pattern")
  else do
    let ep ← classend pat p
    let previous ← previousAt src s
    let before ← matchbracketclass pat previous p (ep - 1)
    if before then .ok (none, ms)
    else do
      let c ← srcAt src s
      let here ← matchbracketclass pat c p (ep - 1)
      if here then m ms s ep else .ok (none, ms)

/-- `match` goes on behind what was matched, if anything was. -/
def matchOn (m : Matcher) (ms : MatchState) (p : Nat) :
    Option Nat → Except MatchError (Option Nat × MatchState)
  | some s => m ms s p
  | none => .ok (none, ms)

/-- One turn of `match`; what it goes on with is left to `m`. -/
def matchStep (m : Matcher) : Matcher := fun ms s p => do
  let c ← patAt pat p
  if c = ch '(' then do
    let next ← patAt pat (p + 1)
    if next = ch ')' then startCapture m ms s (p + 2) .position
    else startCapture m ms s (p + 1) .unfinished
  else if c = ch ')' then endCapture m ms s (p + 1)
  else if c = L_ESC then do
    let next ← patAt pat (p + 1)
    if next = ch 'b' then do
      let s ← matchbalance src pat s (p + 2)
      matchOn m ms (p + 4) s
    else if next = ch 'f' then matchFrontier src pat m ms s (p + 2)
    else if isdigit next then do
      let s ← matchCapture src ms s next
      matchOn m ms (p + 2) s
    else matchItem src pat m ms s p
  else if c = 0 then .ok (some s, ms)
  else if c = ch '$' then do
    let next ← patAt pat (p + 1)
    if next = 0 then .ok (if s = src.length then some s else none, ms)
    else matchItem src pat m ms s p
  else matchItem src pat m ms s p

/-- `match`, with calls nested as deep as is asked for. -/
def doMatch : Nat → Matcher
  | 0 => fun _ _ _ => .error .stuck
  | n + 1 => matchStep src pat (doMatch n)

end Match

end UgmeeLua.Strlib

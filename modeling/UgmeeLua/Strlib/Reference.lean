import UgmeeLua.Strlib.Match

namespace UgmeeLua.Strlib

/-! ## Patterns taken apart -/

/-- What stands in a set. -/
inductive SetItem where
  | cls (cl : UInt8)
  | range (lo hi : UInt8)
  | one (c : UInt8)
  deriving DecidableEq, Repr

/-- The classes of characters, which a pattern item may repeat. -/
inductive CharClass where
  | any
  | cls (cl : UInt8)
  | set (neg : Bool) (items : List SetItem)
  | one (c : UInt8)
  deriving DecidableEq, Repr

inductive Repeat where
  | once
  | opt
  | star
  | plus
  | minus
  deriving DecidableEq, Repr

inductive Item where
  | start
  | position
  | close
  | balance (x y : UInt8)
  | frontier (k : CharClass)
  | back (l : UInt8)
  | atEnd
  | chars (k : CharClass) (q : Repeat)
  | malformed
  deriving DecidableEq, Repr

def SetItem.has (c : UInt8) : SetItem → Bool
  | .cls cl => matchClass c cl
  | .range lo hi => lo ≤ c && c ≤ hi
  | .one d => d = c

def CharClass.has (c : UInt8) : CharClass → Bool
  | .any => true
  | .cls cl => matchClass c cl
  | .set neg items => items.any (SetItem.has c) != neg
  | .one d => d = c

/-- The text of a set up to its `]`, and what follows. Its first character is in the set even if it is a
`]`, and so is one behind a `%`. -/
def setText : Bytes → Option (Bytes × Bytes)
  | [] => none
  | [_] => none
  | c :: d :: l =>
    if c = L_ESC then
      match l with
      | [] => none
      | e :: l =>
        if e = ch ']' then some ([c, d], l)
        else (setText (e :: l)).map fun (text, rest) => (c :: d :: text, rest)
    else if d = ch ']' then some ([c], l)
    else (setText (d :: l)).map fun (text, rest) => (c :: text, rest)

/-- What a text puts into a set. A `%` that the end of a range leaves alone before the `]` has no meaning
in the documentation; here it takes the `]`. -/
def setItems : Bytes → List SetItem
  | [] => []
  | [c] => [if c = L_ESC then .cls (ch ']') else .one c]
  | [c, d] => if c = L_ESC then [.cls d] else .one c :: setItems [d]
  | c :: d :: e :: l =>
    if c = L_ESC then .cls d :: setItems (e :: l)
    else if d = ch '-' then .range c e :: setItems l
    else .one c :: setItems (d :: e :: l)

/-- The set behind a `[`. -/
def parseSet (l : Bytes) : Option (CharClass × Bytes) :=
  if l.head? = some (ch '^') then
    (setText l.tail).map fun (text, rest) => (.set true (setItems text), rest)
  else (setText l).map fun (text, rest) => (.set false (setItems text), rest)

def parseClass : Bytes → Option (CharClass × Bytes)
  | [] => none
  | c :: l =>
    if c = ch '.' then some (.any, l)
    else if c = L_ESC then
      match l with
      | [] => none
      | cl :: l => some (.cls cl, l)
    else if c = ch '[' then parseSet l
    else some (.one c, l)

/-- How often a class may be repeated. -/
def quantified (k : CharClass) : Bytes → Item × Bytes
  | [] => (.chars k .once, [])
  | q :: l =>
    if q = ch '?' then (.chars k .opt, l)
    else if q = ch '*' then (.chars k .star, l)
    else if q = ch '+' then (.chars k .plus, l)
    else if q = ch '-' then (.chars k .minus, l)
    else (.chars k .once, q :: l)

def parseChars (l : Bytes) : Item × Bytes :=
  match parseClass l with
  | some (k, l) => quantified k l
  | none => (.malformed, [])

def parseFrontier (l : Bytes) : Item × Bytes :=
  if l.head? = some (ch '[') then
    match parseSet l.tail with
    | some (k, l) => (.frontier k, l)
    | none => (.malformed, [])
  else (.malformed, [])

def parseBalance : Bytes → Item × Bytes
  | x :: y :: l => (.balance x y, l)
  | _ => (.malformed, [])

/-- An item behind a `%`. -/
def parseEscape (c : UInt8) (l : Bytes) : Item × Bytes :=
  if l.head? = some (ch 'b') then parseBalance l.tail
  else if l.head? = some (ch 'f') then parseFrontier l.tail
  else if l.head?.any isdigit then (.back (l.headD 0), l.tail)
  else parseChars (c :: l)

/-- The first item of a pattern, and what follows. -/
def parseItem (c : UInt8) (l : Bytes) : Item × Bytes :=
  if c = ch '(' then if l.head? = some (ch ')') then (.position, l.tail) else (.start, l)
  else if c = ch ')' then (.close, l)
  else if c = L_ESC then parseEscape c l
  else if c = ch '$' ∧ l = [] then (.atEnd, [])
  else parseChars (c :: l)

/-- The items of a pattern, as many as are asked for. -/
def items : Nat → Bytes → List Item
  | 0, _ => []
  | _ + 1, [] => []
  | n + 1, c :: l =>
    let (i, rest) := parseItem c l
    i :: items n rest

/-! ## Matches of a pattern, the preferred ones first -/

section Matches

variable (src : Bytes)

/-- How many characters of the subject from `s` on are of a class. -/
def run (k : CharClass) (s : Nat) : Nat := ((src.drop s).takeWhile k.has).length

def hasAt (k : CharClass) (s : Nat) : Bool := (src[s]?).any k.has

/-- The matches of what follows a run, the longest run first. -/
def longestFirst {α : Type} (next : Nat → List α) (s : Nat) : Nat → List α
  | 0 => next s
  | i + 1 => next (s + (i + 1)) ++ longestFirst next s i

def shortestFirst {α : Type} (next : Nat → List α) (s : Nat) : Nat → List α
  | 0 => next s
  | i + 1 => next s ++ shortestFirst next (s + 1) i

/-- How far it is to where `y` has come as often as `x`, after `d` more of them. -/
def balancedLength (x y : UInt8) : Nat → Bytes → Option Nat
  | _, [] => none
  | d, c :: l =>
    if c = y then if d = 1 then some 1 else (balancedLength x y (d - 1) l).map (· + 1)
    else if c = x then (balancedLength x y (d + 1) l).map (· + 1)
    else (balancedLength x y d l).map (· + 1)

/-- The end of the balanced text that begins at `s`. -/
def balancedEnd (x y : UInt8) (s : Nat) : Option Nat :=
  match src.drop s with
  | [] => none
  | c :: l => if c = x then (balancedLength x y 1 l).map (s + 1 + ·) else none

/-- The innermost capture that is still open. -/
def lastOpen (caps : List Capture) : Nat → Option Nat
  | 0 => none
  | l + 1 =>
    if (caps[l]?).any fun c => c.len = .unfinished then some l else lastOpen caps l

/-- The bytes at `s` are those of a capture, where it ends. -/
def backEnd (caps : List Capture) (l : UInt8) (s : Nat) : Option Nat :=
  match caps[(l - ch '1').toNat]? with
  | some ⟨init, .len n⟩ =>
    if s + n ≤ src.length ∧ (src.drop init).take n = (src.drop s).take n then some (s + n) else none
  | _ => none

def frontierAt (k : CharClass) (s : Nat) : Bool :=
  !k.has (if s = 0 then 0 else src.getD (s - 1) 0) && k.has (src.getD s 0)

/-- The ends of the matches of a pattern from `s` on, with their captures, in the order in which they are
preferred. -/
def successes : List Item → Nat → List Capture → List (Nat × List Capture)
  | [], s, caps => [(s, caps)]
  | i :: rest, s, caps =>
    let next := fun s => successes rest s caps
    match i with
    | .start => successes rest s (caps ++ [⟨s, .unfinished⟩])
    | .position => successes rest s (caps ++ [⟨s, .position⟩])
    | .close =>
      match lastOpen caps caps.length with
      | some l =>
        let init := (caps.getD l ⟨0, .unfinished⟩).init
        successes rest s (caps.set l ⟨init, .len (s - init)⟩)
      | none => []
    | .balance x y => ((balancedEnd src x y s).map next).getD []
    | .frontier k => if frontierAt src k s then next s else []
    | .back l => ((backEnd src caps l s).map next).getD []
    | .atEnd => if s = src.length then next s else []
    | .chars k .once => if hasAt src k s then next (s + 1) else []
    | .chars k .opt => (if hasAt src k s then next (s + 1) else []) ++ next s
    | .chars k .star => longestFirst next s (run src k s)
    | .chars k .plus => if hasAt src k s then longestFirst next (s + 1) (run src k (s + 1)) else []
    | .chars k .minus => shortestFirst next s (run src k s)
    | .malformed => []

end Matches

end UgmeeLua.Strlib

import Mathlib.Algebra.Ring.Nat
import UgmeeLua.Ulib.SplitArgs

namespace UgmeeLua.Misc

open Blank

inductive Key where
  | num (n : Nat)
  | str (s : List Char)
  deriving DecidableEq

/-- A table in the order of `pairs`: an entry holds a string or a table. `ref` tells tables apart
that hold the same. -/
inductive KeyValues where
  | nil
  | text (key : Key) (s : List Char) (rest : KeyValues)
  | table (key : Key) (ref : Nat) (sub : KeyValues) (rest : KeyValues)
  deriving DecidableEq

/-- What `%q` writes for a character. -/
def quotedChar (c : Char) : List Char :=
  if c = '"' ∨ c = '\\' ∨ c = '\n' then ['\\', c]
  else if c = '\r' then ['\\', 'r']
  else if c = '\x00' then ['\\', '0', '0', '0']
  else [c]

def formatQ (s : List Char) : List Char := '"' :: s.flatMap quotedChar ++ ['"']

def keyText : Key → List Char
  | .num _ => []
  | .str k => formatQ k ++ ['\t']

/-- `ULib.makeKeyValues`: the text, and `completed` afterwards, which a call leaves for the next. -/
def makeEntries : KeyValues → List Char → List Nat → List Char × List Nat
  | .nil, _, completed => ([], completed)
  | .text key s rest, tab, completed =>
    let (after, completed) := makeEntries rest tab completed
    (tab ++ keyText key ++ formatQ s ++ '\n' :: after, completed)
  | .table key ref sub rest, tab, completed =>
    let (inner, completed) :=
      if ref ∈ completed then ([], completed) else makeEntries sub (tab ++ ['\t']) (completed ++ [ref])
    let (after, completed) := makeEntries rest tab completed
    (tab ++ keyText key ++ '\n' :: tab ++ '{' :: '\n' :: inner ++ tab ++ '}' :: '\n' :: after, completed)

def makeKeyValues (ref : Nat) (t : KeyValues) : List Char := (makeEntries t [] [ref]).1

/-- What `[%S \t]` is for. -/
def commentChar (c : Char) : Bool := !isSpaceChar c || c = ' ' || c = '\t'

/-- `ULib.stripComments( str, "//" )`, inside a comment or outside. -/
def stripComments : Bool → List Char → List Char
  | _, [] => []
  | false, '/' :: '/' :: l => stripComments true l
  | false, c :: l => c :: stripComments false l
  | true, c :: l => if commentChar c then stripComments true l else c :: stripComments false l

/-- What an entry holds. -/
abbrev Value := List Char ⊕ KeyValues

def KeyValues.entry (key : Key) : Value → KeyValues → KeyValues
  | .inl s, rest => .text key s rest
  | .inr t, rest => .table key 0 t rest

/-- `t[ key ]`. -/
def KeyValues.get : KeyValues → Key → Option Value
  | .nil, _ => none
  | .text k s rest, key => if k = key then some (.inl s) else rest.get key
  | .table k _ sub rest, key => if k = key then some (.inr sub) else rest.get key

/-- `t[ key ] = v`. -/
def KeyValues.set (key : Key) (v : Value) : KeyValues → KeyValues
  | .nil => entry key v .nil
  | .text k s rest => if k = key then entry key v rest else .text k s (rest.set key v)
  | .table k ref sub rest => if k = key then entry key v rest else .table k ref sub (rest.set key v)

/-- `t[ key ] = nil`. -/
def KeyValues.erase (key : Key) : KeyValues → KeyValues
  | .nil => .nil
  | .text k s rest => if k = key then rest else .text k s (rest.erase key)
  | .table k ref sub rest => if k = key then rest else .table k ref sub (rest.erase key)

/-- How many positions of the list part are taken: they are filled one after the other. -/
def KeyValues.getn : KeyValues → Nat
  | .nil => 0
  | .text (.num _) _ rest => rest.getn + 1
  | .text (.str _) _ rest => rest.getn
  | .table (.num _) _ _ rest => rest.getn + 1
  | .table (.str _) _ _ rest => rest.getn

/-- `table.insert( t, s )`. -/
def KeyValues.insert (s : List Char) (t : KeyValues) : KeyValues :=
  t.set (.num (t.getn + 1)) (.inl s)

/-- The rest of the library: `string.Explode( "\n", str )`, and the length operator, for which a table
with a nil in it may have several lengths. -/
structure TextLibrary (N : Type) extends StringLibrary N where
  explode : List Char → List (List Char)
  len : List (Option (List Char)) → Nat
  explode_eq : ∀ s, explode s = s.splitOn '\n'
  /-- The length is a border of the table. -/
  len_full : ∀ args, len args = 0 ∨ ∃ s, args[len args - 1]? = some (some s)
  len_end : ∀ args, args[len args]?.join = none

variable {N : Type} [DecidableEq N] (L : TextLibrary N)

/-- The lines of a table up to its closing bracket, and the lines after it. `inline` brackets are
open inside. -/
def findEnd : Nat → List (List Char) → Option (List (List Char) × List (List Char))
  | _, [] => none
  | inline, line :: rest =>
    let inline := if L.trim line = ['{'] then inline + 1 else inline
    if L.trim line = ['}'] then
      if inline > 0 then (findEnd (inline - 1) rest).map fun p => (line :: p.1, p.2)
      else some ([], rest)
    else (findEnd inline rest).map fun p => (line :: p.1, p.2)

/-- How much text there is in some lines. -/
def textSize (lines : List (List Char)) : Nat := (lines.map fun line => line.length + 1).sum

@[simp] theorem textSize_nil : textSize [] = 0 := rfl

@[simp] theorem textSize_cons (line : List Char) (lines : List (List Char)) :
    textSize (line :: lines) = line.length + 1 + textSize lines := rfl

theorem textSize_tail (lines : List (List Char)) : textSize lines.tail ≤ textSize lines := by
  cases lines with
  | nil => exact Nat.le_refl _
  | cons line lines => exact Nat.le_add_left ..

theorem textSize_splitOn (s : List Char) : textSize (s.splitOn '\n') = s.length + 1 := by
  induction s with
  | nil => rfl
  | cons c s ih =>
    rw [List.splitOn_cons_eq_if_modifyHead]
    split_ifs with hc
    · rw [textSize_cons, ih, List.length_nil, List.length_cons]
      omega
    · cases hl : s.splitOn '\n' with
      | nil => exact absurd hl (List.splitOn_ne_nil _ _)
      | cons line lines =>
        rw [hl] at ih
        simp only [textSize_cons, List.modifyHead_cons, List.length_cons] at ih ⊢
        omega

theorem length_stripComments (comment : Bool) (l : List Char) :
    (stripComments comment l).length ≤ l.length := by
  fun_induction stripComments comment l with
  | case1 => exact Nat.le_refl _
  | case2 l ih => exact Nat.le_succ_of_le (Nat.le_succ_of_le ih)
  | case3 c l hno ih => exact Nat.succ_le_succ ih
  | case4 c l hc ih => exact Nat.le_succ_of_le ih
  | case5 c l hc ih => exact Nat.succ_le_succ ih

/-- `table.concat( lines, "\n" )`. -/
def concatLines (lines : List (List Char)) : List Char := ['\n'].intercalate lines

theorem length_concatLines (lines : List (List Char)) :
    (concatLines lines).length ≤ textSize lines := by
  induction lines with
  | nil => exact Nat.le_refl _
  | cons line lines ih =>
    cases lines with
    | nil => simp [concatLines, textSize, List.intercalate]
    | cons line' lines =>
      have hcons : concatLines (line :: line' :: lines) = line ++ '\n' :: concatLines (line' :: lines) := by
        simp [concatLines, List.intercalate]
      rw [hcons, textSize_cons, List.length_append, List.length_cons]
      omega

omit [DecidableEq N] in
variable {L} in
theorem findEnd_size {inline : Nat} {lines inner after : List (List Char)}
    (h : findEnd L inline lines = some (inner, after)) :
    textSize inner + textSize after < textSize lines := by
  have hpush : ∀ {inner after : List (List Char)} {line : List Char} {rest : List (List Char)} {d : Nat},
      (∀ {inner after}, findEnd L d rest = some (inner, after) →
        textSize inner + textSize after < textSize rest) →
      (findEnd L d rest).map (fun p => (line :: p.1, p.2)) = some (inner, after) →
      textSize inner + textSize after < textSize (line :: rest) := by
    intro inner after line rest d ih h
    obtain ⟨⟨inner', after'⟩, hp, heq⟩ := Option.map_eq_some_iff.mp h
    obtain ⟨rfl, rfl⟩ := Prod.mk.inj heq
    have := ih hp
    simp only [textSize_cons]
    omega
  induction lines generalizing inline inner after with
  | nil => simp [findEnd] at h
  | cons line rest ih =>
    rw [findEnd] at h
    generalize (if L.trim line = ['{'] then inline + 1 else inline) = depth at h
    by_cases hclose : L.trim line = ['}']
    · rw [if_pos hclose] at h
      by_cases hdepth : depth > 0
      · rw [if_pos hdepth] at h
        exact hpush ih h
      · rw [if_neg hdepth] at h
        obtain ⟨rfl, rfl⟩ := Prod.mk.inj (Option.some_inj.mp h)
        simp only [textSize_cons, textSize_nil]
        omega
    · rw [if_neg hclose] at h
      exact hpush ih h

/-- The lines that a text is read as. -/
def linesOf (str : List Char) : List (List Char) := L.explode (stripComments false str)

omit [DecidableEq N] in
theorem textSize_linesOf (str : List Char) : textSize (linesOf L str) ≤ str.length + 1 := by
  rw [linesOf, L.explode_eq, textSize_splitOn]
  exact Nat.succ_le_succ (length_stripComments false str)

omit [DecidableEq N] in
variable {L} in
/-- The lines inside a table and those after it are less than the lines from its bracket on. -/
theorem findEnd_parts {rest inner after : List (List Char)}
    (h : findEnd L 0 rest.tail = some (inner, after)) :
    textSize (linesOf L (concatLines inner)) ≤ textSize rest ∧ textSize after ≤ textSize rest := by
  have hend := findEnd_size h
  have htail := textSize_tail rest
  have hlines := textSize_linesOf L (concatLines inner)
  have hconcat := length_concatLines inner
  omega

inductive ParseError where
  | indexIsNil
  deriving DecidableEq

/-- `t[ key ] = v`, where the key and the value may be nil. -/
def assign (t : KeyValues) (key : Option (List Char)) (v : Option Value) : Except ParseError KeyValues :=
  match key, v with
  | none, _ => .error .indexIsNil
  | some key, some v => .ok (t.set (.str key) v)
  | some key, none => .ok (t.erase (.str key))

/-- The loop of `ULib.parseKeyValues`. -/
def parseLines (lines : List (List Char)) (t : KeyValues) : Except ParseError (Option KeyValues) :=
  match lines with
  | [] => .ok (some t)
  | line :: rest =>
    let args := splitArgs L.toStringLibrary (L.trim line)
    match L.len args with
    | 0 => parseLines rest t
    | 1 =>
      if rest.head?.map L.trim = some ['{'] then
        match _h : findEnd L 0 rest.tail with
        | none => .ok none
        | some (inner, after) =>
          match parseLines (linesOf L (concatLines inner)) .nil with
          | .error e => .error e
          | .ok sub =>
            match assign t args[0]?.join (sub.map .inr) with
            | .error e => .error e
            | .ok t => parseLines after t
      else
        match args[0]?.join with
        | some s => parseLines rest (t.insert s)
        | none => parseLines rest t
    | 2 =>
      match assign t args[0]?.join (args[1]?.join.map .inl) with
      | .error e => .error e
      | .ok t => parseLines rest t
    | _ => .ok none
termination_by textSize lines
decreasing_by
  all_goals simp only [textSize_cons]
  · omega
  · have := (findEnd_parts _h).1
    omega
  · have := (findEnd_parts _h).2
    omega
  all_goals omega

/-- `ULib.parseKeyValues( str )`: a table, or nil with a message. -/
def parseKeyValues (str : List Char) : Except ParseError (Option KeyValues) :=
  parseLines L (linesOf L str) .nil

end UgmeeLua.Misc

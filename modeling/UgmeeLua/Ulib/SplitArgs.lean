import Mathlib.Algebra.Group.Nat.Even
import UgmeeLua.Lib.Blank
import UgmeeLua.Ulib.Ucl

namespace UgmeeLua.Misc

open Blank

/-- What a command line needs of the library: `string.Trim`, `tonumber`, the text of a number, and
the numbers that a table of groups is indexed with. -/
structure StringLibrary (N : Type) where
  trim : List Char → List Char
  tonumber : List Char → Option N
  tostring : N → List Char
  nth : Nat → N
  /-- It takes the white space away from both ends. -/
  trim_eq : ∀ s, trim s = strip isSpaceChar s

/-- The numbers from `1` to `n` are different, are written in digits and read back. -/
structure StringLibrary.Counts {N : Type} (L : StringLibrary N) (n : Nat) : Prop where
  reads : ∀ k, 1 ≤ k → k ≤ n → L.tonumber (L.tostring (L.nth k)) = some (L.nth k)
  digits : ∀ k, 1 ≤ k → k ≤ n → ∀ c ∈ L.tostring (L.nth k), c.isDigit = true
  inj : ∀ j k, 1 ≤ j → j ≤ n → 1 ≤ k → k ≤ n → L.nth j = L.nth k → j = k

/-- `string.find( str, "%s+" )`: the text before the first white space, and the text after it. -/
def findSpaces (str : List Char) : Option (List Char × List Char) :=
  match str.dropWhile fun c => !isSpaceChar c with
  | [] => none
  | spaces => some (str.takeWhile fun c => !isSpaceChar c, spaces.dropWhile isSpaceChar)

theorem findSpaces_some {str before after : List Char} (h : findSpaces str = some (before, after)) :
    ∃ c l, str = before ++ c :: l ∧ Solid isSpaceChar before ∧ isSpaceChar c = true ∧
      after = l.dropWhile isSpaceChar := by
  have hsplit := List.takeWhile_append_dropWhile (p := fun c => !isSpaceChar c) (l := str)
  have hsolid : Solid isSpaceChar (str.takeWhile fun c => !isSpaceChar c) :=
    fun c hc => by simpa using List.mem_takeWhile_imp hc
  unfold findSpaces at h
  cases hspaces : str.dropWhile (fun c => !isSpaceChar c) with
  | nil => simp [hspaces] at h
  | cons c l =>
    have hne : str.dropWhile (fun c => !isSpaceChar c) ≠ [] := by simp [hspaces]
    have hc : isSpaceChar c = true := by
      simpa [hspaces] using List.head_dropWhile_not (fun c => !isSpaceChar c) hne
    simp only [hspaces, Option.some_inj, Prod.mk.injEq, List.dropWhile_cons_of_pos hc] at h hsplit
    obtain ⟨rfl, rfl⟩ := h
    exact ⟨c, l, hsplit.symm, hsolid, hc, rfl⟩

theorem findSpaces_shorter {str before after : List Char} (h : findSpaces str = some (before, after)) :
    after.length < str.length := by
  obtain ⟨c, l, rfl, -, -, rfl⟩ := findSpaces_some h
  have := List.length_dropWhile_le isSpaceChar l
  simp only [List.length_append, List.length_cons]
  omega

/-- `ULib.explode( "%s+", str )`. -/
def explode (str : List Char) : List (List Char) :=
  match _h : findSpaces str with
  | some (before, after) => before :: explode after
  | none => [str]
termination_by str.length
decreasing_by exact findSpaces_shorter _h

def marker : List Char := ['^', '*', '#']

/-- The matches of `%b""`: a quotation mark and what is up to the next one. `group` is what has been
read of a match. -/
def balanced : Option (List Char) → List Char → List (List Char)
  | _, [] => []
  | none, c :: l => if c = '"' then balanced (some [c]) l else balanced none l
  | some group, c :: l =>
    if c = '"' then (group ++ [c]) :: balanced none l else balanced (some (group ++ [c])) l

/-- What `ULib.makePatternSafe( match )` finds as a pattern, which ends at the first NUL. -/
def patternText (match_ : List Char) : List Char := match_.takeWhile (· ≠ '\x00')

/-- `gsub` of the first occurrence of a text. -/
def replaceFirst (text repl : List Char) : List Char → List Char
  | [] => if text = [] then repl else []
  | c :: l => if text <+: c :: l then repl ++ (c :: l).drop text.length else c :: replaceFirst text repl l

structure Marking where
  str : List Char
  quotes : List (List Char)

variable {N : Type} [DecidableEq N] (L : StringLibrary N)

/-- What is called for each match of `%b""`. -/
def markQuote (st : Marking) (match_ : List Char) : Marking :=
  let quotes := st.quotes ++ [(stripQuotes (String.ofList match_)).toList]
  ⟨replaceFirst (patternText match_) (marker ++ L.tostring (L.nth quotes.length)) st.str, quotes⟩

/-- `quotes[ num ]`. -/
def quoteAt (quotes : List (List Char)) (num : N) : Option (List Char) :=
  ((quotes.zipIdx 1).find? fun q => L.nth q.2 = num).map (·.1)

/-- What a piece of the marked text stands for. -/
def readMarker (quotes : List (List Char)) (v : List Char) : Option (List Char) :=
  if v.take 3 = marker then (L.tonumber (v.drop 3)).bind (quoteAt L quotes) else some v

/-- `ULib.splitArgs`: what the positions of the table hold, `none` for nil. -/
def splitArgs (str : List Char) : List (Option (List Char)) :=
  let str := L.trim str
  if str = [] then []
  else
    let st := (balanced none str).foldl (markQuote L) ⟨str, []⟩
    ((explode st.str).map L.trim).map (readMarker L st.quotes)

end UgmeeLua.Misc

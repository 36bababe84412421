import UgmeeLua.Lexer.Llex

namespace UgmeeLua

open RESERVED

/-! Texts as the scanner takes them apart, byte by byte. -/

/-- The text after the line break that it starts with: `\n`, `\r`, `\n\r` or `\r\n`. -/
def afterBreak : Bytes → Bytes
  | c :: d :: l => if isNewline d && d ≠ c then l else d :: l
  | _ => []

theorem afterBreak_length (c : UInt8) (l : Bytes) :
    (afterBreak (c :: l)).length ≤ l.length := by
  cases l with
  | nil => simp [afterBreak]
  | cons d l =>
    rw [afterBreak]
    split_ifs
    · simp
    · simp

/-- The run of `=` that a text starts with. -/
def equals (l : Bytes) : Bytes := l.takeWhile (· = ch '=')

def afterEquals (l : Bytes) : Bytes := l.dropWhile (· = ch '=')

/-- A long bracket that opens the text: its level, and the text after it. -/
def longOpen : Bytes → Option (Nat × Bytes)
  | c :: l =>
    if c = ch '[' then
      match afterEquals l with
      | d :: r => if d = ch '[' then some ((equals l).length, r) else none
      | [] => none
    else none
  | [] => none

/-- `]`, as many `=` as the level says, `]`. -/
def longClose (level : Nat) : Bytes := ch ']' :: (List.replicate level (ch '=') ++ [ch ']'])

/-- What reads `w` first and then what `x` reads. -/
def before (w : Bytes) (x : Option (Bytes × Bytes)) : Option (Bytes × Bytes) :=
  x.map fun (s, r) => (w ++ s, r)

/-- The text up to the closing long bracket, with its line breaks as `\n`, and the text after the
bracket. Level 0 does not admit a second `[[`. -/
def longBody (level : Nat) : Bytes → Option (Bytes × Bytes)
  | [] => none
  | c :: l =>
    if (longClose level).isPrefixOf (c :: l) then some ([], l.drop (level + 1))
    else if level = 0 ∧ c = ch '[' ∧ l.head? = some (ch '[') then none
    else if isNewline c then
      before [ch '\n'] (longBody level (afterBreak (c :: l)))
    else before [c] (longBody level l)
  termination_by l => l.length
  decreasing_by
    · have := afterBreak_length c l
      simp only [List.length_cons]
      omega
    · simp

/-- The contents of a long bracket; a line break right after the opening bracket is left out. -/
def longText (level : Nat) (l : Bytes) : Option (Bytes × Bytes) :=
  longBody level (if l.head?.any isNewline then afterBreak l else l)

/-- The value of up to three digits. -/
def decimal (ds : Bytes) : Nat := ds.foldl (fun n d => 10 * n + (d.toNat - 48)) 0

/-- An escape sequence after its backslash: the character, and the text after the sequence. -/
def escape : Bytes → Option (UInt8 × Bytes)
  | [] => none
  | c :: l =>
    match escapeChar c with
    | some e => some (e, l)
    | none =>
      if isNewline c then some (ch '\n', afterBreak (c :: l))
      else if isdigit c then
        let ds := ((c :: l).take 3).takeWhile isdigit
        if 255 < decimal ds then none
        else some (UInt8.ofNat (decimal ds), (c :: l).drop ds.length)
      else some (c, l)

theorem escape_length {l r : Bytes} {c : UInt8} (h : escape l = some (c, r)) :
    r.length < l.length := by
  cases l with
  | nil => cases h
  | cons d l =>
    rw [escape] at h
    split at h
    · cases h
      simp
    · simp only at h
      split_ifs at h with hn hd
      · cases h
        have := afterBreak_length d l
        simp only [List.length_cons]
        omega
      · cases h
        have : 0 < (((d :: l).take 3).takeWhile isdigit).length := by
          simp [hd]
        simp only [List.length_drop, List.length_cons]
        omega
      · cases h
        simp

/-- The contents of a string after its opening quote, and the text after its closing one. -/
def quoted (del : UInt8) : Bytes → Option (Bytes × Bytes)
  | [] => none
  | c :: l =>
    if c = del then some ([], l)
    else if isNewline c then none
    else if c = ch '\\' then
      match _h : escape l with
      | some (e, r) => before [e] (quoted del r)
      | none => none
    else before [c] (quoted del l)
  termination_by l => l.length
  decreasing_by
    · have := escape_length _h
      simp only [List.length_cons]
      omega
    · simp

/-- The text after the first `*/`. -/
def commentEnd : Bytes → Option Bytes
  | c :: l =>
    if c = ch '*' && l.head? = some (ch '/') then some l.tail else commentEnd l
  | [] => none

def lineEnd (l : Bytes) : Bytes := l.dropWhile fun c => !isNewline c

/-- The exponent mark that a text starts with, with its sign, and the text after it. -/
def exponent : Bytes → Bytes × Bytes
  | c :: l =>
    if c = ch 'E' || c = ch 'e' then
      match l with
      | d :: r => if d = ch '+' || d = ch '-' then ([c, d], r) else ([c], d :: r)
      | [] => ([c], [])
    else ([], c :: l)
  | [] => ([], [])

/-- A NUL where the mark of an exponent, or its sign, could stand. -/
def nulExponent : Bytes → Bool
  | c :: l => c = 0 || ((c = ch 'E' || c = ch 'e') && l.head? = some 0)
  | [] => false

/-- The text of a numeral, whatever it spells: digits and dots, an exponent mark with its sign,
letters and digits; and the text after it. -/
def numeral (l : Bytes) : Bytes × Bytes :=
  let (e, r) := exponent (l.dropWhile isDecimal)
  (l.takeWhile isDecimal ++ e ++ r.takeWhile isName, r.dropWhile isName)

section LongBrackets

theorem before_nil (x : Option (Bytes × Bytes)) : before [] x = x := by
  cases x <;> rfl

theorem before_before (w v : Bytes) (x : Option (Bytes × Bytes)) :
    before w (before v x) = before (w ++ v) x := by
  cases x with
  | none => rfl
  | some p => simp [before]

theorem before_eq_none (w : Bytes) (x : Option (Bytes × Bytes)) :
    before w x = none ↔ x = none := Option.map_eq_none_iff

theorem equals_eq_replicate (l : Bytes) :
    equals l = List.replicate (equals l).length (ch '=') := by
  apply List.eq_replicate_of_mem
  intro c hc
  simpa using List.all_eq_true.mp (List.all_takeWhile (l := l)) c hc

theorem afterEquals_of_none {l : Bytes} (h : equals l = []) : afterEquals l = l := by
  have hl := List.takeWhile_append_dropWhile (p := (· = ch '=')) (l := l)
  rw [show l.takeWhile (· = ch '=') = [] from h] at hl
  exact hl

theorem longClose_isPrefixOf (level : Nat) (l : Bytes) :
    (longClose level).isPrefixOf (ch ']' :: l) = true ↔
      (equals l).length = level ∧ (afterEquals l).head? = some (ch ']') := by
  have run : (List.replicate level (ch '=') ++ [ch ']']).isPrefixOf l = true ↔
      (equals l).length = level ∧ (afterEquals l).head? = some (ch ']') := by
    induction level generalizing l with
    | zero =>
      cases l with
      | nil => simp [equals, afterEquals]
      | cons c l =>
        by_cases hc : c = ch '='
        · simp [equals, afterEquals, hc, show ¬ ch ']' = ch '=' by decide]
        · simpa [equals, afterEquals, hc] using eq_comm
    | succ n ih =>
      cases l with
      | nil => simp [equals, afterEquals, List.replicate_succ]
      | cons c l =>
        by_cases hc : c = ch '='
        · simpa [equals, afterEquals, hc, List.replicate_succ] using ih l
        · simp [equals, afterEquals, hc, List.replicate_succ, Ne.symm hc]
  simpa [longClose] using run

theorem longBody_plain (level : Nat) (c : UInt8) (l : Bytes) (h1 : c ≠ ch ']')
    (h2 : ¬ (level = 0 ∧ c = ch '[' ∧ l.head? = some (ch '['))) (h3 : ¬ isNewline c = true) :
    longBody level (c :: l) = before [c] (longBody level l) := by
  have hclose : ¬ (longClose level).isPrefixOf (c :: l) = true := by
    simp [longClose, h1.symm]
  rw [longBody, if_neg hclose, if_neg h2, if_neg h3]

theorem longBody_equals (level : Nat) (l : Bytes) :
    longBody level l = before (equals l) (longBody level (afterEquals l)) := by
  induction l with
  | nil => exact (before_nil _).symm
  | cons c l ih =>
    by_cases hc : c = ch '='
    · subst hc
      rw [longBody_plain level _ l (by decide) (fun h => absurd h.2.1 (by decide)) (by decide), ih,
        before_before]
      simp [equals, afterEquals]
    · simp [equals, afterEquals, hc, before_nil]

theorem longBody_close (level : Nat) (l r : Bytes) (h : (equals l).length = level)
    (hr : afterEquals l = ch ']' :: r) : longBody level (ch ']' :: l) = some ([], r) := by
  have hp := (longClose_isPrefixOf level l).mpr ⟨h, by rw [hr]; rfl⟩
  have hl : l = equals l ++ ch ']' :: r := by
    rw [← hr]
    exact (List.takeWhile_append_dropWhile).symm
  rw [longBody, if_pos hp]
  congr 2
  rw [hl, ← h, ← List.drop_drop, List.drop_left]
  rfl

theorem longBody_bracket (level : Nat) (l : Bytes)
    (h : ¬ ((equals l).length = level ∧ (afterEquals l).head? = some (ch ']'))) :
    longBody level (ch ']' :: l) =
      before (ch ']' :: equals l) (longBody level (afterEquals l)) := by
  have hp := mt (longClose_isPrefixOf level l).mp h
  rw [longBody, if_neg hp, if_neg (fun h => absurd h.2.1 (by decide)), if_neg (by decide),
    longBody_equals, before_before]
  rfl

/-- An opening bracket inside, unless it is a second one of level 0. -/
theorem longBody_open (level : Nat) (l : Bytes)
    (h : ¬ (level = 0 ∧ l.head? = some (ch '['))) :
    longBody level (ch '[' :: l) =
      before (ch '[' :: equals l) (longBody level (afterEquals l)) := by
  rw [longBody_plain level _ l (by decide) (fun h' => h ⟨h'.1, h'.2.2⟩) (by decide),
    longBody_equals, before_before]
  rfl

end LongBrackets

end UgmeeLua

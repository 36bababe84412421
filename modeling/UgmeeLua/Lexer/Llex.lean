import UgmeeLua.Lexer.LexState

namespace UgmeeLua

open Loop RESERVED

variable {N : Type}

/-- Bytes of the text that the scanner has not passed; every loop of the scanner runs this down. -/
def LexState.size (ls : LexState N) : Nat := ls.rest.length

/-- One pass of `while (p(ls->current)) step(ls);`. -/
def whilePass (p : UInt8 → Bool) (step : LexState N → Except LexError (LexState N))
    (ls : LexState N) : Except LexError (Pass (LexState N) (LexState N)) :=
  if ls.current.any p then (step ls).map .again else .ok (.done ls)

def saveWhile (p : UInt8 → Bool) (ls : LexState N) : Except LexError (LexState N) :=
  loop LexState.size .fuel (whilePass p LexState.saveAndNext) ls

def skipWhile (p : UInt8 → Bool) (ls : LexState N) : Except LexError (LexState N) :=
  loop LexState.size .fuel (whilePass p LexState.next) ls

/-- `check_next`; `strchr` finds the terminator of the set too. -/
def checkNext (ls : LexState N) (set : List Char) : Except LexError (Bool × LexState N) :=
  if ls.current.any (fun c => c ∈ set.map ch || c = 0) then
    ls.saveAndNext.map (fun ls => (true, ls))
  else .ok (false, ls)

/-- The buffer as a C string. -/
def cstring (b : Bytes) : Bytes := b.takeWhile (· ≠ 0)

/-- What the loop over the digits of a numeral takes. -/
def isDecimal (c : UInt8) : Bool := isdigit c || c = ch '.'

/-- The exponent mark of a numeral and its optional sign. -/
def readExponent (ls : LexState N) : Except LexError (LexState N) := do
  let (exponent, ls) ← checkNext ls ['E', 'e']
  ls.doIf exponent fun ls => (checkNext ls ['+', '-']).map Prod.snd

/-- `read_numeral`; in the C locale the decimal point is a dot and `trydecpoint` tries the same
text once more. -/
def readNumeral [LuaNumber N] (ls : LexState N) : Except LexError (N × LexState N) := do
  let ls ← ls.saveAndNext
  let ls ← saveWhile isDecimal ls
  let ls ← readExponent ls
  let ls ← saveWhile isName ls
  let ls := ls.save 0
  match LuaNumber.str2d (cstring ls.buff) with
  | some r => pure (r, ls)
  | none => luaXLexerror ls "malformed number" (.reserved TK_NUMBER)

/-- `skip_sep`; the loop counts by the length of the buffer. -/
def skipSep (ls : LexState N) : Except LexError (Int × LexState N) := do
  let s := ls.current
  let ls ← ls.saveAndNext
  let start := ls.buff.length
  let ls ← saveWhile (· = ch '=') ls
  let count : Int := (ls.buff.length - start : Nat)
  pure (if ls.current = s then count else -count - 1, ls)

/-- A pass of `read_long_string`; `str` is false where `seminfo` is `NULL`, in a comment. -/
def readLongStringPass (str : Bool) (sep : Nat) (ls : LexState N) :
    Except LexError (Pass (LexState N) (LexState N)) :=
  match ls.current with
  | none =>
    luaXLexerror ls (if str then "unfinished long string" else "unfinished long comment")
      (.reserved TK_EOS)
  | some c =>
    if c = ch '[' then do
      let (count, ls) ← skipSep ls
      if count = sep then
        let ls ← ls.saveAndNext
        if sep = 0 then luaXLexerror ls "nesting of [[...]] is deprecated" (.ofChar '[')
        else pure (.again ls)
      else pure (.again ls)
    else if c = ch ']' then do
      let (count, ls) ← skipSep ls
      if count = sep then
        let ls ← ls.saveAndNext
        pure (.done ls)
      else pure (.again ls)
    else if isNewline c then do
      let ls ← inclinenumber (ls.save (ch '\n'))
      pure (.again (if str then ls else ls.resetbuffer))
    else (if str then ls.saveAndNext else ls.next).map .again

/-- `read_long_string`: the contents between the brackets, of a string. -/
def readLongString (str : Bool) (sep : Nat) (ls : LexState N) :
    Except LexError (Bytes × LexState N) := do
  let ls ← ls.saveAndNext
  let ls ← ls.doIf ls.currIsNewline inclinenumber
  let ls ← loop LexState.size .fuel (readLongStringPass str sep) ls
  pure ((ls.buff.drop (2 + sep)).take (ls.buff.length - 2 * (2 + sep)), ls)

/-- The escapes that stand for one character. -/
def escapeChar (c : UInt8) : Option UInt8 :=
  if c = ch 'a' then some 7
  else if c = ch 'b' then some 8
  else if c = ch 'f' then some 12
  else if c = ch 'n' then some 10
  else if c = ch 'r' then some 13
  else if c = ch 't' then some 9
  else if c = ch 'v' then some 11
  else none

/-- The digits of `\ddd`, `n` of them at most. -/
def escapeDigits : Nat → Nat → LexState N → Except LexError (Nat × LexState N)
  | 0, c, ls => .ok (c, ls)
  | n + 1, c, ls =>
    match ls.current with
    | some d =>
      if isdigit d then do
        let ls ← ls.next
        escapeDigits n (10 * c + (d.toNat - 48)) ls
      else .ok (c, ls)
    | none => .ok (c, ls)

/-- An escape sequence, at the character after the backslash. -/
def readEscape (ls : LexState N) : Except LexError (LexState N) :=
  match ls.current with
  | none => .ok ls
  | some c =>
    match escapeChar c with
    | some e => (ls.save e).next
    | none =>
      if isNewline c then inclinenumber (ls.save (ch '\n'))
      else if isdigit c then do
        let (c, ls) ← escapeDigits 3 0 ls
        if 255 < c then luaXLexerror ls "escape sequence too large" (.reserved TK_STRING)
        else pure (ls.save (UInt8.ofNat c))
      else ls.saveAndNext

def readStringPass (del : UInt8) (ls : LexState N) :
    Except LexError (Pass (LexState N) (LexState N)) :=
  match ls.current with
  | none => luaXLexerror ls "unfinished string" (.reserved TK_EOS)
  | some c =>
    if c = del then .ok (.done ls)
    else if isNewline c then luaXLexerror ls "unfinished string" (.reserved TK_STRING)
    else if c = ch '\\' then do
      let ls ← ls.next
      let ls ← readEscape ls
      pure (.again ls)
    else ls.saveAndNext.map .again

/-- `read_string`. -/
def readString (del : UInt8) (ls : LexState N) : Except LexError (Bytes × LexState N) := do
  let ls ← ls.saveAndNext
  let ls ← loop LexState.size .fuel (readStringPass del) ls
  let ls ← ls.saveAndNext
  pure ((ls.buff.drop 1).take (ls.buff.length - 2), ls)

def skipCCommentPass (ls : LexState N) : Except LexError (Pass (LexState N) (LexState N)) :=
  match ls.current with
  | none => luaXLexerror ls "unfinished long comment" (.reserved TK_EOS)
  | some c =>
    if c = ch '*' then do
      let ls ← ls.next
      if ls.currIs '/' then
        let ls ← ls.next
        pure (.done ls)
      else pure (.again ls)
    else if isNewline c then do
      let ls ← inclinenumber (ls.save (ch '\n'))
      pure (.again ls.resetbuffer)
    else ls.next.map .again

/-- `skip_c_comment`, at the asterisk that opens the comment. -/
def skipCComment (ls : LexState N) : Except LexError (LexState N) := do
  let ls ← ls.doIf ls.currIsNewline inclinenumber
  loop LexState.size .fuel skipCCommentPass ls

/-- What a pass of `llex` leaves with. -/
abbrev LexPass (N : Type) := Pass (LexState N) (Lexeme N × LexState N)

/-- `return token`, of a token without semantics information. -/
def lexToken (token : Token) (ls : LexState N) : LexPass N := .done (⟨token, .none⟩, ls)

/-- The rest of a line, as both kinds of short comment skip it. -/
def skipLine (ls : LexState N) : Except LexError (LexState N) :=
  skipWhile (fun c => !isNewline c) ls

/-- The case of `-`: the operator, or a comment. -/
def lexMinus (ls : LexState N) : Except LexError (LexPass N) := do
  let ls ← ls.next
  if !ls.currIs '-' then pure (lexToken (.ofChar '-') ls)
  else
    let ls ← ls.next
    if ls.currIs '[' then
      let (sep, ls) ← skipSep ls
      let ls := ls.resetbuffer
      if 0 ≤ sep then
        let (_, ls) ← readLongString false sep.toNat ls
        pure (.again ls.resetbuffer)
      else (skipLine ls).map .again
    else (skipLine ls).map .again

/-- The case of `/`: the operator, or a comment. -/
def lexSlash (ls : LexState N) : Except LexError (LexPass N) := do
  let ls ← ls.next
  if ls.currIs '/' then (skipLine ls).map .again
  else if ls.currIs '*' then (skipCComment ls).map .again
  else pure (lexToken (.ofChar '/') ls)

/-- The case of `[`: the bracket, or a long string. -/
def lexBracket (ls : LexState N) : Except LexError (LexPass N) := do
  let (sep, ls) ← skipSep ls
  if 0 ≤ sep then
    let (s, ls) ← readLongString true sep.toNat ls
    pure (.done (⟨.reserved TK_STRING, .ts s⟩, ls))
  else if sep = -1 then pure (lexToken (.ofChar '[') ls)
  else luaXLexerror ls "invalid long string delimiter" (.reserved TK_STRING)

/-- The cases of `=`, `^`, `!` and `~`: one character, or a token of two when `second` follows. -/
def lexPair (first second : Char) (r : RESERVED) (ls : LexState N) :
    Except LexError (LexPass N) := do
  let ls ← ls.next
  if !ls.currIs second then pure (lexToken (.ofChar first) ls)
  else
    let ls ← ls.next
    pure (lexToken (.reserved r) ls)

/-- The case of `<`. -/
def lexLess (ls : LexState N) : Except LexError (LexPass N) := do
  let ls ← ls.next
  if ls.currIs '=' then
    let ls ← ls.next
    pure (lexToken (.reserved TK_LE) ls)
  else if ls.currIs '<' then
    let ls ← ls.next
    pure (lexToken (.reserved TK_LSHFT) ls)
  else pure (lexToken (.ofChar '<') ls)

/-- The case of `>`; unlike the case of `<` its last branch skips a character. -/
def lexGreater (ls : LexState N) : Except LexError (LexPass N) := do
  let ls ← ls.next
  if ls.currIs '=' then
    let ls ← ls.next
    pure (lexToken (.reserved TK_GE) ls)
  else if ls.currIs '>' then
    let ls ← ls.next
    pure (lexToken (.reserved TK_RSHFT) ls)
  else
    let ls ← ls.next
    pure (lexToken (.ofChar '>') ls)

/-- `tsv.reserved`, as `luaX_init` sets it. -/
def reservedWord (s : Bytes) : Option RESERVED :=
  ((luaXTokens.take numReserved).zip [TK_AND, TK_BREAK,
    TK_DO, TK_ELSE, TK_ELSEIF, TK_END, TK_FALSE, TK_FOR, TK_FUNCTION,
    TK_IF, TK_IN, TK_LOCAL, TK_NIL, TK_NOT, TK_OR, TK_REPEAT,
    TK_RETURN, TK_THEN, TK_TRUE, TK_UNTIL, TK_WHILE]).lookup s

variable [LuaNumber N]

def lexNumeral (ls : LexState N) : Except LexError (LexPass N) := do
  let (r, ls) ← readNumeral ls
  pure (.done (⟨.reserved TK_NUMBER, .r r⟩, ls))

/-- The case of `.`: the dots, or a numeral. -/
def lexDot (ls : LexState N) : Except LexError (LexPass N) := do
  let ls ← ls.saveAndNext
  let (second, ls) ← checkNext ls ['.']
  if second then
    let (third, ls) ← checkNext ls ['.']
    pure (lexToken (.reserved (if third then TK_DOTS else TK_CONCAT)) ls)
  else if !ls.current.any isdigit then pure (lexToken (.ofChar '.') ls)
  else lexNumeral ls

/-- An identifier or a reserved word. -/
def lexName (ls : LexState N) : Except LexError (LexPass N) := do
  let ls ← ls.saveAndNext
  let ls ← saveWhile isName ls
  match reservedWord ls.buff with
  | some r => pure (lexToken (.reserved r) ls)
  | none => pure (.done (⟨.reserved TK_NAME, .ts ls.buff⟩, ls))

/-- The default case. -/
def lexDefault (c : UInt8) (ls : LexState N) : Except LexError (LexPass N) :=
  if isspace c then ls.next.map .again
  else if isdigit c then lexNumeral ls
  else if isalpha c || c = ch '_' then lexName ls
  else ls.next.map (lexToken (.char c))

/-- A pass of the loop of `llex`. -/
def llexPass (ls : LexState N) : Except LexError (LexPass N) :=
  match ls.current with
  | none => .ok (.done (tkEos, ls))
  | some c =>
    if isNewline c then (inclinenumber ls).map .again
    else if c = ch '-' then lexMinus ls
    else if c = ch '/' then lexSlash ls
    else if c = ch '[' then lexBracket ls
    else if c = ch '=' then lexPair '=' '=' TK_EQ ls
    else if c = ch '<' then lexLess ls
    else if c = ch '>' then lexGreater ls
    else if c = ch '^' then lexPair '^' '^' TK_XOR ls
    else if c = ch '!' then lexPair '!' '=' TK_NE ls
    else if c = ch '~' then lexPair '~' '=' TK_NE ls
    else if c = ch '"' || c = ch '\'' then do
      let (s, ls) ← readString c ls
      pure (.done (⟨.reserved TK_STRING, .ts s⟩, ls))
    else if c = ch '.' then lexDot ls
    else lexDefault c ls

def llex (ls : LexState N) : Except LexError (Lexeme N × LexState N) :=
  loop LexState.size .fuel llexPass ls.resetbuffer

def luaXNext (ls : LexState N) : Except LexError (LexState N) :=
  let ls := { ls with lastline := ls.linenumber }
  if ls.lookahead.token ≠ .reserved TK_EOS then
    .ok { ls with t := ls.lookahead, lookahead := tkEos }
  else do
    let (t, ls) ← llex ls
    pure { ls with t := t }

def luaXLookahead (ls : LexState N) : Except LexError (LexState N) := do
  let (t, ls) ← llex ls
  pure { ls with lookahead := t }

end UgmeeLua

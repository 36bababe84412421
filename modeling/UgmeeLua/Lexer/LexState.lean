import UgmeeLua.Core.Number
import UgmeeLua.Lexer.Zio
import UgmeeLua.Lib.Loop

namespace UgmeeLua

open RESERVED

/-- The byte of a character literal. -/
def ch (c : Char) : UInt8 := UInt8.ofNat c.toNat

/-! The character classes of the C locale. -/

def isdigit (c : UInt8) : Bool := 48 ≤ c && c ≤ 57
def isalpha (c : UInt8) : Bool := (65 ≤ c && c ≤ 90) || (97 ≤ c && c ≤ 122)
def isalnum (c : UInt8) : Bool := isalpha c || isdigit c
def isspace (c : UInt8) : Bool := (9 ≤ c && c ≤ 13) || c = 32
def iscntrl (c : UInt8) : Bool := c < 32 || c = 127
def isNewline (c : UInt8) : Bool := c = ch '\n' || c = ch '\r'
def isName (c : UInt8) : Bool := isalnum c || c = ch '_'

/-- Semantics information of a token. -/
inductive SemInfo (N : Type) where
  | none
  | r (n : N)
  | ts (s : Bytes)
  deriving DecidableEq, Repr

structure Lexeme (N : Type) where
  token : Token
  seminfo : SemInfo N
  deriving DecidableEq, Repr

/-- What `luaX_lexerror` makes its message of; the token 0 stands for none. -/
structure SyntaxError where
  linenumber : Nat
  msg : Bytes
  token : Token
  buff : Bytes
  deriving DecidableEq, Repr

/-- Outcomes of the scanner that are no token: an error message, a read past the end of the stream,
or a loop out of passes (which no loop ever is). -/
inductive LexError where
  | lexerror (e : SyntaxError)
  | readPastEnd
  | fuel
  deriving DecidableEq, Repr

/-- `MAX_INT`. -/
def maxInt : Nat := 2 ^ 31 - 3

structure LexState (N : Type) where
  inp : Input
  linenumber : Nat
  lastline : Nat
  t : Lexeme N
  lookahead : Lexeme N
  buff : Bytes

variable {N : Type}

/-- `TK_EOS`, which in the look-ahead slot stands for no token. -/
def tkEos : Lexeme N := ⟨.reserved TK_EOS, .none⟩

def luaXSetinput (reader : List Bytes) : LexState N where
  inp := Input.start reader
  linenumber := 1
  lastline := 1
  t := tkEos
  lookahead := tkEos
  buff := []

namespace LexState

def current (ls : LexState N) : Option UInt8 := ls.inp.current

def rest (ls : LexState N) : Bytes := ls.inp.rest

/-- `next`, the macro. -/
def next (ls : LexState N) : Except LexError (LexState N) :=
  match ls.inp.next with
  | .ok inp => .ok { ls with inp := inp }
  | .error .readPastEnd => .error .readPastEnd

def save (ls : LexState N) (c : UInt8) : LexState N := { ls with buff := ls.buff ++ [c] }

/-- `save_and_next`; `EOZ` is saved as its cast to `char`. -/
def saveAndNext (ls : LexState N) : Except LexError (LexState N) :=
  (ls.save (ls.current.getD 255)).next

/-- `luaZ_resetbuffer`. -/
def resetbuffer (ls : LexState N) : LexState N := { ls with buff := [] }

/-- `ls->current == c`. -/
def currIs (ls : LexState N) (c : Char) : Bool := ls.current = some (ch c)

def currIsNewline (ls : LexState N) : Bool := ls.current.any isNewline

/-- `if (c) step(ls);` -/
def doIf (ls : LexState N) (c : Bool) (step : LexState N → Except LexError (LexState N)) :
    Except LexError (LexState N) :=
  if c then step ls else .ok ls

/-- The state after a character, where there is one. -/
def adv (ls : LexState N) : LexState N := { ls with inp := ls.inp.adv }

theorem current_eq (ls : LexState N) : ls.current = ls.rest.head? := ls.inp.current_eq

theorem next_eq (ls : LexState N) :
    ls.next = if ls.rest = [] then .error .readPastEnd else .ok ls.adv := by
  rw [next, Input.next_eq]
  unfold rest
  split_ifs <;> rfl

theorem rest_eq_nil (ls : LexState N) : ls.rest = [] ↔ ls.current = none := by
  rw [current_eq, List.head?_eq_none_iff]

theorem next_eq_error (ls : LexState N) : ls.next = .error .readPastEnd ↔ ls.current = none := by
  rw [next_eq, ← rest_eq_nil]
  split_ifs with h <;> simp [h]

@[simp] theorem rest_adv (ls : LexState N) : ls.adv.rest = ls.rest.tail := ls.inp.rest_adv

@[simp] theorem rest_save (ls : LexState N) (c : UInt8) : (ls.save c).rest = ls.rest := rfl

@[simp] theorem current_save (ls : LexState N) (c : UInt8) : (ls.save c).current = ls.current := rfl

@[simp] theorem rest_resetbuffer (ls : LexState N) : ls.resetbuffer.rest = ls.rest := rfl

@[simp] theorem current_resetbuffer (ls : LexState N) : ls.resetbuffer.current = ls.current := rfl

end LexState

variable {α : Type}

def luaXLexerror (ls : LexState N) (msg : String) (token : Token) : Except LexError α :=
  .error (.lexerror ⟨ls.linenumber, bytes msg, token, ls.buff⟩)

def luaXSyntaxerror (ls : LexState N) (msg : String) : Except LexError α :=
  luaXLexerror ls msg ls.t.token

/-- `inclinenumber`; it skips `\n`, `\r`, `\n\r` or `\r\n`. -/
def inclinenumber (ls : LexState N) : Except LexError (LexState N) := do
  let old := ls.current
  let ls ← ls.next
  let ls ← ls.doIf (ls.currIsNewline && ls.current ≠ old) LexState.next
  let ls := { ls with linenumber := ls.linenumber + 1 }
  if maxInt ≤ ls.linenumber then luaXSyntaxerror ls "chunk has too many lines" else pure ls

end UgmeeLua

import Mathlib.Algebra.Ring.Int.Defs
import Mathlib.Algebra.Ring.Nat
import Mathlib.Data.List.Basic

namespace UgmeeLua

/-- Source text and strings are byte sequences. -/
abbrev Bytes := List UInt8

/-- Bytes of an ASCII literal of the source. -/
def bytes (s : String) : Bytes := s.toList.map (fun c => UInt8.ofNat c.toNat)

/-- Tokens denoted by reserved words, then the other terminal symbols, in the order of the
enumeration (the `LUA_UGMEE` build). -/
inductive RESERVED where
  | TK_AND | TK_BREAK
  | TK_DO | TK_ELSE | TK_ELSEIF | TK_END | TK_FALSE | TK_FOR | TK_FUNCTION
  | TK_IF | TK_IN | TK_LOCAL | TK_NIL | TK_NOT | TK_OR | TK_REPEAT
  | TK_RETURN | TK_THEN | TK_TRUE | TK_UNTIL | TK_WHILE
  | TK_CONCAT | TK_DOTS | TK_EQ | TK_GE | TK_LSHFT | TK_LE | TK_RSHFT | TK_XOR | TK_NE
  | TK_NUMBER | TK_NAME | TK_STRING | TK_EOS
  deriving DecidableEq, Repr

/-- `NUM_RESERVED`: the reserved words come first in the enumeration. -/
def numReserved : Nat := 21

/-- A token is a single byte or one of the enumeration, which starts at `FIRST_RESERVED`. -/
inductive Token where
  | char (c : UInt8)
  | reserved (r : RESERVED)
  deriving DecidableEq, Repr

/-- The token of a one-character literal. -/
def Token.ofChar (c : Char) : Token := .char (UInt8.ofNat c.toNat)

/-- The array of token names, in the order it has in the source. -/
def luaXTokens : List Bytes := [
  "and", "break", "do", "else", "elseif",
  "end", "false", "for", "function", "if",
  "in", "local", "nil", "not", "or", "repeat",
  "return", "then", "true", "until", "while",
  "..", "...", "==", ">=", ">>", "<=", "<<", "^^", "~=", "!=",
  "<number>", "<name>", "<string>", "<eof>"].map bytes

/-- Position of a token in the enumeration, `token - FIRST_RESERVED`. -/
def RESERVED.index (r : RESERVED) : Nat := r.ctorIdx

/-- The name that the array holds at the token's position. -/
def RESERVED.name (r : RESERVED) : Bytes := luaXTokens.getD r.index []

end UgmeeLua

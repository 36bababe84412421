import UgmeeLua.Lexer.Llex

namespace UgmeeLua

open RESERVED

/-- `%d` of a number that is not negative. -/
def decimalDigits (n : Nat) : Bytes := (Nat.toDigits 10 n).map ch

def luaXToken2str : Token → Bytes
  | .char c => if iscntrl c then bytes "char(" ++ decimalDigits c.toNat ++ bytes ")" else [c]
  | .reserved r => r.name

/-- The tokens that a message quotes by their spelling. -/
def spelled (t : Token) : Bool :=
  t = .reserved TK_NAME || t = .reserved TK_STRING || t = .reserved TK_NUMBER

namespace SyntaxError

def txtToken (e : SyntaxError) : Bytes :=
  if spelled e.token then cstring e.buff else luaXToken2str e.token

/-- The message that `luaX_lexerror` throws, of a chunk with this `luaO_chunkid`. -/
def message (chunkid : Bytes) (e : SyntaxError) : Bytes :=
  let msg := chunkid ++ bytes ":" ++ decimalDigits e.linenumber ++ bytes ": " ++ cstring e.msg
  if e.token = .char 0 then msg else msg ++ bytes " near '" ++ e.txtToken ++ bytes "'"

end SyntaxError

end UgmeeLua

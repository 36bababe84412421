import UgmeeLua.Lexer.Token

namespace UgmeeLua

/-- `lua_Integer` is `ptrdiff_t`, 64 bits wide. -/
abbrev LuaInteger := BitVec 64

/-- What a number is as an `int`. -/
def toCInt (n : Int) : Int := n.bmod (2 ^ 32)

/-- `lua_Number` with what the C language and its library do on it: the arithmetic, the cast to
`int`, the cast from `lua_Integer`, and `luaO_str2d`. -/
class LuaNumber (N : Type) where
  zero : N
  add : N → N → N
  sub : N → N → N
  mul : N → N → N
  div : N → N → N
  neg : N → N
  floor : N → N
  pow : N → N → N
  eq : N → N → Bool
  lt : N → N → Bool
  le : N → N → Bool
  toInt : N → BitVec 32
  ofInteger : LuaInteger → N
  str2d : Bytes → Option N
  /-- Zero is no NaN. -/
  eq_zero : eq zero zero = true

variable {N : Type} [LuaNumber N]

open LuaNumber

def luaiNumadd (a b : N) : N := add a b
def luaiNumsub (a b : N) : N := sub a b
def luaiNummul (a b : N) : N := mul a b
def luaiNumdiv (a b : N) : N := div a b
def luaiNummod (a b : N) : N := sub a (mul (floor (div a b)) b)
def luaiNumpow (a b : N) : N := pow a b
def luaiNumunm (a : N) : N := neg a
def luaiNumeq (a b : N) : Bool := eq a b
def luaiNumlt (a b : N) : Bool := lt a b
def luaiNumle (a b : N) : Bool := le a b
def luaiNumisnan (a : N) : Bool := !luaiNumeq a a

/-- `lua_number2int` into a `lua_Integer`. -/
def luaNumber2int (a : N) : LuaInteger := (toInt a).signExtend 64

def luaiBinor (a b : N) : LuaInteger := luaNumber2int a ||| luaNumber2int b
def luaiBinand (a b : N) : LuaInteger := luaNumber2int a &&& luaNumber2int b
def luaiBinxor (a b : N) : LuaInteger := luaNumber2int a ^^^ luaNumber2int b
def luaiBinrshft (a b : N) : LuaInteger := (luaNumber2int a).sshiftRight (luaNumber2int b).toNat
def luaiBinlshft (a b : N) : LuaInteger := luaNumber2int a <<< (luaNumber2int b).toNat

/-- Whole numbers as a `lua_Number`, on which the definitions can be evaluated. -/
instance : LuaNumber Int where
  zero := 0
  add := (· + ·)
  sub := (· - ·)
  mul := (· * ·)
  div := Int.fdiv
  neg := Neg.neg
  floor := id
  pow a b := a ^ b.toNat
  eq a b := a == b
  lt a b := decide (a < b)
  le a b := decide (a ≤ b)
  toInt := BitVec.ofInt 32
  ofInteger := BitVec.toInt
  str2d s := if s.isEmpty || s.any (fun c => c < 48 || 57 < c) then none
    else some (s.foldl (fun n c => 10 * n + (c.toNat - 48 : Nat)) (0 : Int))
  eq_zero := by decide

end UgmeeLua

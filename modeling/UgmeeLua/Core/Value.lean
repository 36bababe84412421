import UgmeeLua.Core.Number

namespace UgmeeLua

/-- Type tags, in the order of `lua.h`. -/
inductive LuaType where
  | LUA_TNIL | LUA_TBOOLEAN | LUA_TLIGHTUSERDATA | LUA_TNUMBER | LUA_TSTRING | LUA_TTABLE
  | LUA_TFUNCTION | LUA_TUSERDATA | LUA_TTHREAD
  deriving DecidableEq, Repr

/-- Tagged values; collectable objects are references into the heap, strings their contents. -/
inductive TValue (N : Type) where
  | nil
  | boolean (b : Bool)
  | lightuserdata (p : Nat)
  | number (n : N)
  | string (s : Bytes)
  | table (r : Nat)
  | function (r : Nat)
  | userdata (r : Nat)
  | thread (r : Nat)
  deriving DecidableEq, Repr

variable {N : Type}

def TValue.ttype : TValue N → LuaType
  | .nil => .LUA_TNIL
  | .boolean _ => .LUA_TBOOLEAN
  | .lightuserdata _ => .LUA_TLIGHTUSERDATA
  | .number _ => .LUA_TNUMBER
  | .string _ => .LUA_TSTRING
  | .table _ => .LUA_TTABLE
  | .function _ => .LUA_TFUNCTION
  | .userdata _ => .LUA_TUSERDATA
  | .thread _ => .LUA_TTHREAD

/-- `l_isfalse`. -/
def TValue.isFalse : TValue N → Bool
  | .nil => true
  | .boolean b => !b
  | _ => false

def TValue.isNil : TValue N → Bool
  | .nil => true
  | _ => false

theorem TValue.isNil_iff (v : TValue N) : v.isNil = true ↔ v = .nil := by
  cases v <;> simp [isNil]

/-- `luaV_tonumber`. -/
def luaVTonumber [LuaNumber N] : TValue N → Option N
  | .number n => some n
  | .string s => LuaNumber.str2d s
  | _ => none

end UgmeeLua

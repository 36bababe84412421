import Mathlib.Data.Fintype.OfMap
import Mathlib.Data.Fintype.Sum
import UgmeeLua.Lexer.Token

namespace UgmeeLua

/-- Binary operators; `OPR_NOBINOPR` is the `none` of `getbinopr`. -/
inductive BinOpr where
  | OPR_ADD | OPR_SUB | OPR_MUL | OPR_DIV | OPR_MOD | OPR_POW
  | OPR_BOR | OPR_BAND | OPR_BXOR | OPR_BLSHFT | OPR_BRSHFT
  | OPR_CONCAT
  | OPR_NE | OPR_EQ
  | OPR_LT | OPR_LE | OPR_GT | OPR_GE
  | OPR_AND | OPR_OR
  deriving DecidableEq, Repr

/-- Unary operators; `OPR_NOUNOPR` is the `none` of `getunopr`. -/
inductive UnOpr where
  | OPR_BNOT | OPR_MINUS | OPR_NOT | OPR_LEN
  deriving DecidableEq, Repr

open BinOpr UnOpr RESERVED

instance : Fintype BinOpr :=
  .ofList [OPR_ADD, OPR_SUB, OPR_MUL, OPR_DIV, OPR_MOD, OPR_POW, OPR_BOR, OPR_BAND, OPR_BXOR,
    OPR_BLSHFT, OPR_BRSHFT, OPR_CONCAT, OPR_NE, OPR_EQ, OPR_LT, OPR_LE, OPR_GT, OPR_GE, OPR_AND,
    OPR_OR] fun o => by cases o <;> decide

instance : Fintype UnOpr :=
  .ofList [OPR_BNOT, OPR_MINUS, OPR_NOT, OPR_LEN] fun u => by cases u <;> decide

/-- A `switch` over tokens: the row of the first case that matches. -/
def switch {α : Type} (cases : List (Token × α)) (t : Token) : Option α :=
  (cases.find? (fun row => row.1 = t)).map Prod.snd

theorem switch_mem {α : Type} (cases : List (Token × α)) (t : Token) (a : α)
    (h : switch cases t = some a) : (t, a) ∈ cases := by
  obtain ⟨row, hrow, ha⟩ := Option.map_eq_some_iff.mp h
  have ht : row.1 = t := by simpa using List.find?_some hrow
  have hm := List.mem_of_find?_eq_some hrow
  rwa [← ht, ← ha]

def unoprCases : List (Token × UnOpr) := [
  (.reserved TK_NOT, OPR_NOT),
  (.ofChar '-', OPR_MINUS),
  (.ofChar '#', OPR_LEN),
  (.ofChar '!', OPR_BNOT)]

def getunopr : Token → Option UnOpr := switch unoprCases

def binoprCases : List (Token × BinOpr) := [
  (.ofChar '+', OPR_ADD),
  (.ofChar '-', OPR_SUB),
  (.ofChar '*', OPR_MUL),
  (.ofChar '/', OPR_DIV),
  (.ofChar '%', OPR_MOD),
  (.ofChar '^', OPR_POW),
  (.ofChar '|', OPR_BOR),
  (.ofChar '&', OPR_BAND),
  (.reserved TK_XOR, OPR_BXOR),
  (.reserved TK_LSHFT, OPR_BLSHFT),
  (.reserved TK_RSHFT, OPR_BRSHFT),
  (.reserved TK_CONCAT, OPR_CONCAT),
  (.reserved TK_NE, OPR_NE),
  (.reserved TK_EQ, OPR_EQ),
  (.ofChar '<', OPR_LT),
  (.reserved TK_LE, OPR_LE),
  (.ofChar '>', OPR_GT),
  (.reserved TK_GE, OPR_GE),
  (.reserved TK_AND, OPR_AND),
  (.reserved TK_OR, OPR_OR)]

def getbinopr : Token → Option BinOpr := switch binoprCases

/-- Token of a unary operator. -/
def UnOpr.token : UnOpr → Token
  | OPR_BNOT => .ofChar '!'
  | OPR_MINUS => .ofChar '-'
  | OPR_NOT => .reserved TK_NOT
  | OPR_LEN => .ofChar '#'

/-- Token of a binary operator. -/
def BinOpr.token : BinOpr → Token
  | OPR_ADD => .ofChar '+'
  | OPR_SUB => .ofChar '-'
  | OPR_MUL => .ofChar '*'
  | OPR_DIV => .ofChar '/'
  | OPR_MOD => .ofChar '%'
  | OPR_POW => .ofChar '^'
  | OPR_BOR => .ofChar '|'
  | OPR_BAND => .ofChar '&'
  | OPR_BXOR => .reserved TK_XOR
  | OPR_BLSHFT => .reserved TK_LSHFT
  | OPR_BRSHFT => .reserved TK_RSHFT
  | OPR_CONCAT => .reserved TK_CONCAT
  | OPR_NE => .reserved TK_NE
  | OPR_EQ => .reserved TK_EQ
  | OPR_LT => .ofChar '<'
  | OPR_LE => .reserved TK_LE
  | OPR_GT => .ofChar '>'
  | OPR_GE => .reserved TK_GE
  | OPR_AND => .reserved TK_AND
  | OPR_OR => .reserved TK_OR

theorem getunopr_eq (t : Token) (u : UnOpr) : getunopr t = some u ↔ t = u.token := by
  constructor
  · intro h
    have rows : ∀ row ∈ unoprCases, row.1 = row.2.token := by decide
    exact rows (t, u) (switch_mem _ t u h)
  · rintro rfl
    cases u <;> decide

theorem getbinopr_eq (t : Token) (o : BinOpr) : getbinopr t = some o ↔ t = o.token := by
  constructor
  · intro h
    have rows : ∀ row ∈ binoprCases, row.1 = row.2.token := by decide
    exact rows (t, o) (switch_mem _ t o h)
  · rintro rfl
    cases o <;> decide

/-- The rows of the priority table (left, right) in the order they have in the source; the parser
indexes it with the position of the operator in `BinOpr`. -/
def priority : List (Nat × Nat) := [
  (6, 6), (6, 6), (7, 7), (7, 7), (7, 7),
  (6, 6), (6, 6), (6, 6), (7, 7), (7, 7),
  (10, 9), (5, 4),
  (3, 3), (3, 3),
  (3, 3), (3, 3), (3, 3), (3, 3),
  (2, 2), (1, 1)]

def BinOpr.left (o : BinOpr) : Nat := (priority.getD o.ctorIdx (0, 0)).1

def BinOpr.right (o : BinOpr) : Nat := (priority.getD o.ctorIdx (0, 0)).2

/-- `UNARY_PRIORITY`. -/
def unaryPriority : Nat := 8

/-- `LUAI_MAXCCALLS`: bound on the nesting of syntactical non-terminals. -/
def luaiMaxccalls : Nat := 200

end UgmeeLua

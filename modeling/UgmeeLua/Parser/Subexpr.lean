import UgmeeLua.Lib.Precedence
import UgmeeLua.Parser.Operators

namespace UgmeeLua

open Precedence BinOpr UnOpr

/-- Expressions as `subexpr` groups them: each `luaK_prefix` and `luaK_posfix` builds a node. -/
abbrev ExprTree (A : Type) := Tree BinOpr UnOpr A

/-- Symbols of an expression; an operand stands for the text that one call of `simpleexp` reads. -/
abbrev ExprSym (A : Type) := Sym Token A

inductive ExprError where
  | tooManyLevels
  | unexpectedSymbol
  | closeExpected
  | fuel
  deriving DecidableEq, Repr

def lexis : Lexis Token BinOpr UnOpr where
  unOf := getunopr
  binOf := getbinopr
  unTok := UnOpr.token
  binTok := BinOpr.token
  unOf_eq := getunopr_eq
  binOf_eq := getbinopr_eq

variable {A : Type}

/-- `getunopr(ls->t.token)`. -/
def unoprAt : List (ExprSym A) → Option UnOpr
  | .op t :: _ => getunopr t
  | _ => none

/-- `getbinopr(ls->t.token)`. -/
def binoprAt : List (ExprSym A) → Option BinOpr := nextBin lexis

mutual
/-- `subexpr`: the operand and every binary operator with a priority higher than `limit`; returns
the tree, the first untreated operator and the text left. -/
def subexpr (fuel nCcalls limit : Nat) (ts : List (ExprSym A)) :
    Except ExprError (ExprTree A × Option BinOpr × List (ExprSym A)) :=
  match fuel with
  | 0 => .error .fuel
  | fuel + 1 =>
    -- enterlevel
    if luaiMaxccalls < nCcalls + 1 then .error .tooManyLevels
    else
      match unoprAt ts with
      | some uop =>
        match subexpr fuel (nCcalls + 1) unaryPriority ts.tail with
        | .ok (v, _, ts') => subexprLoop fuel (nCcalls + 1) limit (.unop uop v) (binoprAt ts') ts'
        | .error e => .error e
      | none =>
        match simpleexp fuel (nCcalls + 1) ts with
        | .ok (v, ts') => subexprLoop fuel (nCcalls + 1) limit v (binoprAt ts') ts'
        | .error e => .error e
termination_by structural fuel
/-- The `while` loop of `subexpr`, with the operator read last. -/
def subexprLoop (fuel nCcalls limit : Nat) (v : ExprTree A) (op : Option BinOpr)
    (ts : List (ExprSym A)) :
    Except ExprError (ExprTree A × Option BinOpr × List (ExprSym A)) :=
  match fuel with
  | 0 => .error .fuel
  | fuel + 1 =>
    match op with
    | some o =>
      if limit < o.left then
        match subexpr fuel nCcalls o.right ts.tail with
        | .ok (v2, nextop, ts') => subexprLoop fuel nCcalls limit (.binop o v v2) nextop ts'
        | .error e => .error e
      else .ok (v, op, ts)
    | none => .ok (v, op, ts)
termination_by structural fuel
/-- `simpleexp`; the branch of `prefixexp` for `(` reads an expression and its closing `)`. -/
def simpleexp (fuel nCcalls : Nat) (ts : List (ExprSym A)) :
    Except ExprError (ExprTree A × List (ExprSym A)) :=
  match fuel, ts with
  | 0, _ => .error .fuel
  | _ + 1, .operand a :: ts' => .ok (.operand a, ts')
  | fuel + 1, .lparen :: ts' =>
    match subexpr fuel nCcalls 0 ts' with
    | .ok (v, _, .rparen :: ts'') => .ok (.paren v, ts'')
    | .ok _ => .error .closeExpected
    | .error e => .error e
  | _ + 1, _ => .error .unexpectedSymbol
termination_by structural fuel
end

end UgmeeLua

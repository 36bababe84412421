import UgmeeLua.Lib.Nesting
import UgmeeLua.Parser.Operators

namespace UgmeeLua.Levels

open Nesting RESERVED

/-! The functions of the parser, by what they read and whom they call; of the code that they emit only its
errors count, which end a run as the scanner's do. -/

/-- The scanner, with the tokens to come and the line that each of them ends in. Behind the last one there
is an error. -/
structure LexState where
  t : Token
  lookahead : Option Token
  tokens : List (Token × Nat)
  linenumber : Nat
  lastline : Nat

inductive ParseError where
  | expected (token : Token)
  | toClose (what who : Token) (line : Nat)
  | syntaxerror (msg : String)
  | lexerror (msg : String)
  | stopped
  | fuel
  deriving DecidableEq, Repr

abbrev Parse (α : Type) := EStateM ParseError (Nest LexState) α

/-- Whether the function is a vararg function, and whether a loop of it is open. -/
structure FuncState where
  is_vararg : Bool
  breakable : Bool

/-- What kind of expression a description is, as far as statements tell it. -/
inductive ExpKind where
  | variable
  | VCALL
  | value
  deriving DecidableEq, Repr

/-! ## The scanner -/

def token : Parse Token := do
  let s ← get
  pure s.state.t

def set (ls : LexState) : Parse Unit := modify fun s => { s with state := ls }

/-- `luaX_next`. -/
def next : Parse Unit := do
  let s ← get
  let ls := { s.state with lastline := s.state.linenumber }
  match ls.lookahead with
  | some t => set { ls with t := t, lookahead := none }
  | none =>
    match ls.tokens with
    | [] => throw .stopped
    | (t, line) :: tokens => set { ls with t := t, tokens := tokens, linenumber := line }

/-- `luaX_lookahead`. -/
def lookahead : Parse Token := do
  let s ← get
  match s.state.tokens with
  | [] => throw .stopped
  | (t, line) :: tokens => do
    set { s.state with lookahead := some t, tokens := tokens, linenumber := line }
    pure t

def testnext (c : Token) : Parse Bool := do
  if (← token) = c then do
    next
    pure true
  else pure false

def check (c : Token) : Parse Unit := do
  if (← token) = c then pure ()
  else throw (.expected c)

def checknext (c : Token) : Parse Unit := do
  check c
  next

def checkmatch (what who : Token) (line : Nat) : Parse Unit := do
  if ← testnext what then pure ()
  else do
    let s ← get
    if line = s.state.linenumber then throw (.expected what)
    else throw (.toClose what who line)

def strCheckname : Parse Unit := checknext (.reserved TK_NAME)

def linenumber : Parse Nat := do
  let s ← get
  pure s.state.linenumber

def singlevar : Parse Unit := call strCheckname

/-- `field`. -/
def field : Parse Unit := call do
  next
  strCheckname

def blockFollow : Token → Bool
  | .reserved TK_ELSE => true
  | .reserved TK_ELSEIF => true
  | .reserved TK_END => true
  | .reserved TK_UNTIL => true
  | .reserved TK_EOS => true
  | _ => false

def parlistLoop : Nat → Parse Bool
  | 0 => throw .fuel
  | n + 1 => do
    match ← token with
    | .reserved TK_NAME => do
      next
      if ← testnext (.ofChar ',') then parlistLoop n
      else pure false
    | .reserved TK_DOTS => do
      next
      pure true
    | _ => throw (.syntaxerror "<name> or '...' expected")

/-- `parlist`, which gives whether the function is a vararg function. -/
def parlist (n : Nat) : Parse Bool := call do
  if (← token) = .ofChar ')' then pure false
  else parlistLoop n

/-- `breakstat`. -/
def breakstat (fs : FuncState) : Parse Unit := call do
  if fs.breakable then pure ()
  else throw (.syntaxerror "no loop to break")

/-- `funcname`. -/
def funcname (n : Nat) : Parse Unit := call do
  singlevar
  repeats .fuel (do
    if (← token) = .ofChar '.' then do
      field
      pure true
    else pure false) n
  if (← token) = .ofChar ':' then field
  else pure ()

section Functions

/-! The functions that call each other, over those two that count their level. -/

variable (chunk : FuncState → Parse Unit) (subexpr : FuncState → Nat → Parse (Option BinOpr)) (n : Nat)

def expr (fs : FuncState) : Parse Unit := call do
  let _ ← subexpr fs 0

def yindex (fs : FuncState) : Parse Unit := call do
  next
  expr subexpr fs
  checknext (.ofChar ']')

def recfield (fs : FuncState) : Parse Unit := call do
  if (← token) = .reserved TK_NAME then strCheckname
  else yindex subexpr fs
  checknext (.ofChar '=')
  expr subexpr fs

def listfield (fs : FuncState) : Parse Unit := call (expr subexpr fs)

/-- A pass of `constructor`. -/
def constructorItem (fs : FuncState) : Parse Bool := do
  let t ← token
  if t = .ofChar '}' then pure false
  else do
    if t = .reserved TK_NAME then do
      if (← lookahead) = .ofChar '=' then recfield subexpr fs
      else listfield subexpr fs
    else if t = .ofChar '[' then recfield subexpr fs
    else listfield subexpr fs
    if ← testnext (.ofChar ',') then pure true
    else testnext (.ofChar ';')

def constructor (fs : FuncState) : Parse Unit := call do
  let line ← linenumber
  checknext (.ofChar '{')
  repeats .fuel (constructorItem subexpr fs) n
  checkmatch (.ofChar '}') (.ofChar '{') line

def explist1 (fs : FuncState) : Parse Unit := call do
  expr subexpr fs
  repeats .fuel (do
    if ← testnext (.ofChar ',') then do
      expr subexpr fs
      pure true
    else pure false) n

def funcargs (fs : FuncState) : Parse Unit := call do
  let line ← linenumber
  let t ← token
  if t = .ofChar '(' then do
    let s ← get
    if line = s.state.lastline then do
      next
      if (← token) = .ofChar ')' then pure ()
      else explist1 subexpr n fs
      checkmatch (.ofChar ')') (.ofChar '(') line
    else throw (.syntaxerror "ambiguous syntax (function call x new statement)")
  else if t = .ofChar '{' then constructor subexpr n fs
  else if t = .reserved TK_STRING then next
  else throw (.syntaxerror "function arguments expected")

def prefixexp (fs : FuncState) : Parse ExpKind := call do
  let t ← token
  if t = .ofChar '(' then do
    let line ← linenumber
    next
    expr subexpr fs
    checkmatch (.ofChar ')') (.ofChar '(') line
    pure .value
  else if t = .reserved TK_NAME then do
    singlevar
    pure .variable
  else throw (.syntaxerror "unexpected symbol")

/-- The loop of `primaryexp`. -/
def primaryexpLoop (fs : FuncState) : Nat → ExpKind → Parse ExpKind
  | 0, _ => throw .fuel
  | m + 1, v => do
    let t ← token
    if t = .ofChar '.' then do
      field
      primaryexpLoop fs m .variable
    else if t = .ofChar '[' then do
      yindex subexpr fs
      primaryexpLoop fs m .variable
    else if t = .ofChar ':' then do
      next
      strCheckname
      funcargs subexpr n fs
      primaryexpLoop fs m .VCALL
    else if t = .ofChar '(' ∨ t = .reserved TK_STRING ∨ t = .ofChar '{' then do
      funcargs subexpr n fs
      primaryexpLoop fs m .VCALL
    else pure v

def primaryexp (fs : FuncState) : Parse ExpKind := call do
  let v ← prefixexp subexpr fs
  primaryexpLoop subexpr n fs n v

def body (line : Nat) : Parse Unit := call do
  checknext (.ofChar '(')
  let is_vararg ← parlist n
  checknext (.ofChar ')')
  chunk ⟨is_vararg, false⟩
  checkmatch (.reserved TK_END) (.reserved TK_FUNCTION) line

def simpleexp (fs : FuncState) : Parse Unit := call do
  match ← token with
  | .reserved TK_NUMBER => next
  | .reserved TK_STRING => next
  | .reserved TK_NIL => next
  | .reserved TK_TRUE => next
  | .reserved TK_FALSE => next
  | .reserved TK_DOTS =>
    if fs.is_vararg then next
    else throw (.syntaxerror "cannot use '...' outside a vararg function")
  | .reserved TK_FUNCTION => do
    next
    body chunk n (← linenumber)
  | t =>
    if t = .ofChar '{' then constructor subexpr n fs
    else do
      let _ ← primaryexp subexpr n fs

/-- The loop of `subexpr`, from the operator on that was read last. -/
def subexprLoop (fs : FuncState) (limit : Nat) : Nat → Option BinOpr → Parse (Option BinOpr)
  | 0, _ => throw .fuel
  | m + 1, op =>
    match op with
    | none => pure none
    | some o =>
      if limit < o.left then do
        next
        let nextop ← subexpr fs o.right
        subexprLoop fs limit m nextop
      else pure op

/-- `subexpr`; `enterlevel` and `leavelevel` stand around it. -/
def subexprBody (fs : FuncState) (limit : Nat) : Parse (Option BinOpr) :=
  call (counting luaiMaxccalls (.lexerror "chunk has too many syntax levels") do
    match getunopr (← token) with
    | some _ => do
      next
      let _ ← subexpr fs unaryPriority
    | none => simpleexp chunk subexpr n fs
    subexprLoop subexpr fs limit n (getbinopr (← token)))

def block (fs : FuncState) : Parse Unit := call (chunk fs)

/-- `assignment`, with as many targets as there are before. -/
def assignment (fs : FuncState) : Nat → ExpKind → Nat → Parse Unit
  | 0, _, _ => throw .fuel
  | m + 1, v, nvars => call do
    chained nvars
    if v = .variable then do
      if ← testnext (.ofChar ',') then do
        let nv ← primaryexp subexpr n fs
        assignment fs m nv (nvars + 1)
      else do
        checknext (.ofChar '=')
        explist1 subexpr n fs
    else throw (.syntaxerror "syntax error")

def cond (fs : FuncState) : Parse Unit := call (expr subexpr fs)

def exp1 (fs : FuncState) : Parse Unit := call (expr subexpr fs)

def whilestat (fs : FuncState) (line : Nat) : Parse Unit := call do
  next
  cond subexpr fs
  checknext (.reserved TK_DO)
  block chunk { fs with breakable := true }
  checkmatch (.reserved TK_END) (.reserved TK_WHILE) line

/-- `repeatstat`: whether it breaks or jumps, the scope has upvalues or none, it reads the same. -/
def repeatstat (fs : FuncState) (line : Nat) : Parse Unit := call do
  next
  chunk { fs with breakable := true }
  checkmatch (.reserved TK_UNTIL) (.reserved TK_REPEAT) line
  cond subexpr { fs with breakable := true }
  breakstat { fs with breakable := true }

def forbody (fs : FuncState) : Parse Unit := call do
  checknext (.reserved TK_DO)
  block chunk fs

def fornum (fs : FuncState) : Parse Unit := call do
  checknext (.ofChar '=')
  exp1 subexpr fs
  checknext (.ofChar ',')
  exp1 subexpr fs
  if ← testnext (.ofChar ',') then exp1 subexpr fs
  else pure ()
  forbody chunk fs

def forlist (fs : FuncState) : Parse Unit := call do
  repeats .fuel (do
    if ← testnext (.ofChar ',') then do
      strCheckname
      pure true
    else pure false) n
  checknext (.reserved TK_IN)
  explist1 subexpr n fs
  forbody chunk fs

def forstat (fs : FuncState) (line : Nat) : Parse Unit := call do
  let fs := { fs with breakable := true }
  next
  strCheckname
  let t ← token
  if t = .ofChar '=' then fornum chunk subexpr fs
  else if t = .ofChar ',' ∨ t = .reserved TK_IN then forlist chunk subexpr n fs
  else throw (.syntaxerror "'=' or 'in' expected")
  checkmatch (.reserved TK_END) (.reserved TK_FOR) line

def testThenBlock (fs : FuncState) : Parse Unit := call do
  next
  cond subexpr fs
  checknext (.reserved TK_THEN)
  block chunk fs

def ifstat (fs : FuncState) (line : Nat) : Parse Unit := call do
  testThenBlock chunk subexpr fs
  repeats .fuel (do
    if (← token) = .reserved TK_ELSEIF then do
      testThenBlock chunk subexpr fs
      pure true
    else pure false) n
  if (← token) = .reserved TK_ELSE then do
    next
    block chunk fs
  else pure ()
  checkmatch (.reserved TK_END) (.reserved TK_IF) line

def localfunc : Parse Unit := call do
  strCheckname
  body chunk n (← linenumber)

def localstat (fs : FuncState) : Parse Unit := call do
  strCheckname
  repeats .fuel (do
    if ← testnext (.ofChar ',') then do
      strCheckname
      pure true
    else pure false) n
  if ← testnext (.ofChar '=') then explist1 subexpr n fs
  else pure ()

def funcstat (line : Nat) : Parse Unit := call do
  next
  funcname n
  body chunk n line

def exprstat (fs : FuncState) : Parse Unit := call do
  let v ← primaryexp subexpr n fs
  if v = .VCALL then pure ()
  else assignment subexpr n fs n v 1

def retstat (fs : FuncState) : Parse Unit := call do
  next
  let t ← token
  if blockFollow t = true ∨ t = .ofChar ';' then pure ()
  else explist1 subexpr n fs

/-- `statement`, which gives whether it must be the last one. -/
def statement (fs : FuncState) : Parse Bool := call do
  let line ← linenumber
  match ← token with
  | .reserved TK_IF => do
    ifstat chunk subexpr n fs line
    pure false
  | .reserved TK_WHILE => do
    whilestat chunk subexpr fs line
    pure false
  | .reserved TK_DO => do
    next
    block chunk fs
    checkmatch (.reserved TK_END) (.reserved TK_DO) line
    pure false
  | .reserved TK_FOR => do
    forstat chunk subexpr n fs line
    pure false
  | .reserved TK_REPEAT => do
    repeatstat chunk subexpr fs line
    pure false
  | .reserved TK_FUNCTION => do
    funcstat chunk n line
    pure false
  | .reserved TK_LOCAL => do
    next
    if ← testnext (.reserved TK_FUNCTION) then localfunc chunk n
    else localstat subexpr n fs
    pure false
  | .reserved TK_RETURN => do
    retstat subexpr n fs
    pure true
  | .reserved TK_BREAK => do
    next
    breakstat fs
    pure true
  | _ => do
    exprstat subexpr n fs
    pure false

/-- `chunk`; `enterlevel` and `leavelevel` stand around it. -/
def chunkBody (fs : FuncState) : Parse Unit :=
  call (counting luaiMaxccalls (.lexerror "chunk has too many syntax levels") (repeats .fuel (do
    if blockFollow (← token) then pure false
    else do
      let islast ← statement chunk subexpr n fs
      let _ ← testnext (.ofChar ';')
      pure !islast) n))

end Functions

/-- `chunk` and `subexpr`. A run is cut off where it goes on for longer than the fuel. -/
def parsers : Nat → (FuncState → Parse Unit) × (FuncState → Nat → Parse (Option BinOpr))
  | 0 => (fun _ => throw .fuel, fun _ _ => throw .fuel)
  | n + 1 => (chunkBody (parsers n).1 (parsers n).2 n, subexprBody (parsers n).1 (parsers n).2 n)

/-- `luaY_parser`. -/
def luaYParser (n : Nat) : Parse Unit := call do
  next
  (parsers n).1 ⟨true, false⟩
  check (.reserved TK_EOS)

/-- A text before it is read, where `nCcalls` calls are counted. -/
def start (text : List (Token × Nat)) (nCcalls : Nat) : Nest LexState where
  state := ⟨.reserved TK_EOS, none, text, 1, 1⟩
  level := nCcalls
  depth := 0
  peak := 0
  chain := 0

end UgmeeLua.Levels

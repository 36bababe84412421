import Mathlib.Logic.Function.Basic
import UgmeeLua.Ulib.Query
import UgmeeLua.Ulib.SplitArgs

namespace UgmeeLua.Subcommand

open Misc

variable {H N : Type}

/-- What a command calls: a handler, the function that `begin_subconcommand` makes of its table `t` and the
handler to fall back on, or `reroute`. -/
inductive Fn (H : Type) where
  | handler (fnCall : H)
  | closure (t : Nat) (fnCall : H)
  | reroute

inductive Value (H : Type) where
  | table (a : Nat)
  | fn (f : Fn H)

/-- The tables that there are, of which the first one is `ULib.subconcommands`, and what has been given to
`concommand.Add` and is in `ULib.autocompletes`. -/
structure State (H : Type) where
  heap : List (String → Option (Value H))
  concommands : String → Option (Fn H)
  autocompletes : String → Bool

def State.start : State H := ⟨[fun _ => none], fun _ => none, fun _ => false⟩

namespace State

variable (st : State H)

def get (a : Nat) (k : String) : Option (Value H) := (st.heap[a]?).bind (· k)

def set (a : Nat) (k : String) (v : Value H) : State H :=
  { st with heap := st.heap.modify a fun t => Function.update t k (some v) }

/-- A table `{}` that is new. -/
def new : Nat × State H := (st.heap.length, { st with heap := st.heap ++ [fun _ => none] })

end State

section Registration

variable (st : State H)

/-- `command:sub( 2 )` -/
def sub2 (command : String) : String := String.ofList (command.toList.drop 1)

/-- `ULib.concommand` as far as it registers; `auto` says that the autocomplete is the name of a function of
the client, and `dedicated` is what `isDedicatedServer` says. -/
def concommand (dedicated : Bool) (command : String) (fnCall : Fn H) (auto : Bool) : State H :=
  let command := stringLower command
  if auto then
    let concommands := Function.update st.concommands ("_" ++ command) (some fnCall)
    { st with
      concommands := if dedicated then Function.update concommands command (some .reroute) else concommands
      autocompletes := Function.update st.autocompletes command true }
  else { st with concommands := Function.update st.concommands command (some fnCall) }

/-- The loop of `begin_subconcommand`, which always looks into `ULib.subconcommands`. -/
def beginWalk (t : Value H) : List String → Except String (Value H)
  | [] => .ok t
  | w :: prefixList =>
    match st.get 0 w with
    | none => .error "Recursive subcommands with prefixes that don't exist!"
    | some t => beginWalk t prefixList

/-- The loop of `add_subconcommand`. -/
def addWalk : Value H → List String → Except String (Value H)
  | t, [] => .ok t
  | .fn _, _ :: _ => .error "attempt to index local 't' (a function value)"
  | .table a, w :: prefixList =>
    match st.get a w with
    | none => .error "Command doesn't exist!"
    | some t => addWalk t prefixList

/-- `t[ command ] = t[ command ] or {}`, with what is there then. -/
def orNew (t : Nat) (command : String) : Value H × State H :=
  match st.get t command with
  | some v => (v, st)
  | none => (.table st.new.1, st.new.2.set t command (.table st.new.1))

def addSubconcommand (prefixList : List String) (command : String) (fnCall : Fn H) : Except String (State H) := do
  let command := stringLower command
  match ← addWalk st (.table 0) prefixList with
  | .fn _ => .error "attempt to index local 't' (a function value)"
  | .table t =>
    match orNew st t command with
    | (.table a, st) => .ok (st.set a "fn" (.fn fnCall))
    | (.fn _, _) => .error "attempt to index field '?' (a function value)"

/-- `ULib.begin_subconcommand`, for what `string.Explode` gives of the prefix. -/
def beginSubconcommand (dedicated : Bool) (prefixList : List String) (fnCall : H) (auto : Bool) :
    Except String (State H) := do
  let last := prefixList.getLastD ""
  match ← beginWalk st (.table 0) prefixList.dropLast with
  | .fn _ => .error "attempt to index local 't' (a function value)"
  | .table t =>
    let f := .closure st.new.1 fnCall
    let st := st.new.2.set t last (.table st.new.1)
    if prefixList.length = 1 then .ok (concommand st dedicated last f auto)
    else addSubconcommand st prefixList.dropLast last f

end Registration

/-! ## Command lines -/

/-- What comes of a line: a handler is called, access is denied to a command, or something goes wrong. With a nil
among the arguments (`holes`) it is left open how many there are. -/
inductive Outcome (H : Type) where
  | calls (fnCall : H) (command : String) (argv : List String) (args : String)
  | denied (command : String)
  | raised (msg : String)
  | rerouted (args : String)
  | unknown
  | holes

/-- What a line is answered with: whether this is the server, `ucl.query` for the player, and the library. -/
structure Env (N : Type) where
  server : Bool
  query : String → Bool
  library : StringLibrary N

/-- `gsub` of every occurrence of a text, of which `skip` characters are still to come. -/
def replaceAll (text repl : List Char) : Nat → List Char → List Char
  | _, [] => []
  | skip + 1, _ :: l => replaceAll text repl skip l
  | 0, c :: l =>
    if text <+: c :: l then repl ++ replaceAll text repl (text.length - 1) l else c :: replaceAll text repl 0 l

/-- The arguments put together again, with quotation marks where there is white space, and the errors of the
console corrected. -/
def rebuild (L : StringLibrary N) (argv : List String) : List Char :=
  let args := argv.flatMap fun v =>
    if v.toList.any isSpaceChar then '"' :: v.toList ++ ['"', ' '] else v.toList ++ [' ']
  let args := replaceAll [' ', ':', ' '] [':'] 0 (L.trim args)
  replaceAll [' ', Char.ofNat 39, ' '] [Char.ofNat 39] 0 args

/-- `args:gsub( "^%S+%s+(.*)$", "%1" )` where there is white space, and nothing where there is none. -/
def dropWord (args : String) : String :=
  if args.toList.all fun c => !isSpaceChar c then ""
  else if args.toList.head?.any isSpaceChar then args
  else String.ofList ((args.toList.dropWhile fun c => !isSpaceChar c).dropWhile isSpaceChar)

section Lines

variable (query : String → Bool) (st : State H)

/-- A call of a function with a command and its arguments. -/
def call : Fn H → String → List String → String → Outcome H
  | .handler fnCall, command, argv, args => .calls fnCall command argv args
  | .reroute, _, _, args => .rerouted args
  | .closure _ fnCall, command, [], args => .calls fnCall command [] args
  | .closure t fnCall, command, w :: argv, args =>
    match st.get t (stringLower w) with
    | none => .calls fnCall command (w :: argv) args
    | some info =>
      let command := command ++ " " ++ stringLower w
      if !query command then .denied command
      else
        match info with
        | .fn _ => .raised "attempt to index local 'info' (a function value)"
        | .table a =>
          match st.get a "fn" with
          | some (.fn f) => call f command argv (dropWord args)
          | some (.table _) => .raised "attempt to call field 'fn' (a table value)"
          | none => .raised "attempt to call field 'fn' (a nil value)"

end Lines

section Console

variable [DecidableEq N] (env : Env N) (st : State H)

/-- The callback that `ULib.concommand` gives to `concommand.Add`. -/
def callback (f : Fn H) (command : String) (argv : List String) : Outcome H :=
  let command := if st.autocompletes (sub2 command) then sub2 command else command
  let args := rebuild env.library argv
  if env.server && !env.query command then .denied command
  else
    match (splitArgs env.library args).allSome with
    | some argv => call env.query st f command (argv.map String.ofList) (String.ofList args)
    | none => .holes

def consoleLine (command : String) (argv : List String) : Outcome H :=
  match st.concommands command with
  | some f => callback env st f command argv
  | none => .unknown

end Console

/-! ## Trees of commands -/

/-- A call of `begin_subconcommand` or of `add_subconcommand`. -/
inductive Step (H : Type) where
  | begins (prefixList : List String) (fnCall : H) (auto : Bool)
  | adds (prefixList : List String) (command : String) (fnCall : H)

def register (dedicated : Bool) (st : State H) : Step H → Except String (State H)
  | .begins prefixList fnCall auto => beginSubconcommand st dedicated prefixList fnCall auto
  | .adds prefixList command fnCall => addSubconcommand st prefixList command (.handler fnCall)

def registerAll (dedicated : Bool) (st : State H) : List (Step H) → Except String (State H)
  | [] => .ok st
  | s :: steps => do
    let st ← register dedicated st s
    registerAll dedicated st steps

/-- What is registered for a chain of words: how the prefix was spelled when it was begun, if it was, and its
handler. -/
structure Entry (H : Type) where
  begun : Option (List String)
  auto : Bool
  fnCall : H

abbrev Registry (H : Type) := List String → Option (Entry H)

namespace Step

/-- The words of a command, in lower case. -/
def chain : Step H → List String
  | .begins prefixList _ _ => prefixList.map stringLower
  | .adds prefixList command _ => prefixList.map stringLower ++ [stringLower command]

def entry : Step H → Entry H
  | .begins prefixList fnCall auto => ⟨some prefixList, auto, fnCall⟩
  | .adds _ _ fnCall => ⟨none, false, fnCall⟩

def after (reg : Registry H) (s : Step H) : Registry H := Function.update reg s.chain (some s.entry)

/-- Prefixes come before their children: the one before the last word has been begun, and nothing is below the
command yet. -/
def InOrder (reg : Registry H) (s : Step H) : Prop :=
  (s.chain.dropLast = [] ∧ (∃ w fnCall auto, s = .begins [w] fnCall auto) ∨
    s.chain.dropLast ≠ [] ∧ ∃ e, reg s.chain.dropLast = some e ∧ e.begun.isSome) ∧
  ∀ w ws, reg (s.chain ++ w :: ws) = none

end Step

def Ordered (reg : Registry H) : List (Step H) → Prop
  | [] => True
  | s :: steps => s.InOrder reg ∧ Ordered (s.after reg) steps

/-- The registry of the steps. -/
def registryOf (reg : Registry H) : List (Step H) → Registry H
  | [] => reg
  | s :: steps => registryOf (s.after reg) steps

/-! ## The longest chain -/

/-- The command of a chain. -/
def joined : List String → String
  | [] => ""
  | w :: ws => ws.foldl (fun command v => command ++ " " ++ v) w

/-- The commands on the way down a chain, behind words that are not asked for. -/
def way (above : List String) : List String → List String
  | [] => []
  | w :: ws => joined (above ++ [w]) :: way (above ++ [w]) ws

/-- The answer to a line: the first command on the way that the player has no access to is denied, else the
handler is called with what is left. -/
def answer (query : String → Bool) (commands : List String) (fnCall : H) (command : String) (argv : List String)
    (args : String) : Outcome H :=
  match commands.find? fun command => !query command with
  | some command => .denied command
  | none => .calls fnCall command argv args

/-- A chain that goes on for `j` words is the longest one. -/
def Longest (reg : Registry H) (above words : List String) (j : Nat) : Prop :=
  j ≤ words.length ∧ (reg (above ++ words.take j)).isSome ∧
    ∀ i, j < i → i ≤ words.length → reg (above ++ words.take i) = none

/-! ## Where the code does so -/

/-- A prefix that has been begun is spelled as it was then. -/
def Spelled (reg : Registry H) (prefixList : List String) : Prop :=
  ∀ e, reg (prefixList.map stringLower) = some e → e.begun = some prefixList

/-- A base command is not taken for one that the client autocompletes and that has a letter less, and the name
of that one is not given to `reroute`. -/
def Apart (dedicated : Bool) (v : String) (auto : Bool) (w : String) (auto' : Bool) : Prop :=
  auto' → sub2 v = w → auto ∧ (dedicated → v ≠ "_" ++ w)

/-- At most two words are begun, prefixes are spelled as they were begun, nothing below two words is called `fn`
where their table has its function, and base commands are not mixed up. -/
def Step.Fits (dedicated : Bool) (reg : Registry H) : Step H → Prop
  | .begins prefixList _ auto =>
    prefixList.length ≤ 2 ∧ Spelled reg prefixList.dropLast ∧
      ∀ w, prefixList = [w] → ∀ v e, reg [v] = some e →
        (v = stringLower w → e.auto = auto) ∧
          (v ≠ stringLower w → Apart dedicated v e.auto (stringLower w) auto ∧
            Apart dedicated (stringLower w) auto v e.auto)
  | .adds prefixList command _ =>
    Spelled reg prefixList ∧
      (2 ≤ prefixList.length → stringLower (prefixList.getLastD "") = prefixList.getLastD "" →
        stringLower command ≠ "fn")

def Fitting (dedicated : Bool) (reg : Registry H) : List (Step H) → Prop
  | [] => True
  | s :: steps => s.InOrder reg ∧ s.Fits dedicated reg ∧ Fitting dedicated (s.after reg) steps

/-- No word of a line is `fn` where the table that it is looked up in has a function. -/
def LineFits (reg : Registry H) (above words : List String) : Prop :=
  ∀ i, 2 ≤ above.length + i → words[i]? = some "fn" → ∀ e prefixList, reg (above ++ words.take i) = some e →
    e.begun = some prefixList → stringLower (prefixList.getLastD "") ≠ prefixList.getLastD ""

/-- What is typed for a base command: with an underscore where the client autocompletes it. -/
def consoleName (auto : Bool) (w : String) : String := if auto then "_" ++ w else w

end UgmeeLua.Subcommand

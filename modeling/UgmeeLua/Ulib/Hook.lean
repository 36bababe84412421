import UgmeeLua.Lib.Table

namespace UgmeeLua

open Table

/-- What is registered as the function of a hook, any value but nil. -/
inductive Func (F : Type) where
  | callable (f : F)
  | uncallable (msg : String)
  | false
  deriving DecidableEq, Repr

/-- `not v`. -/
def Func.isFalse {F : Type} : Func F → Bool
  | .false => true
  | _ => Bool.false

/-- The field of the gamemode for an event, where it is neither nil nor false. -/
inductive GamemodeField (F : Type) where
  | function (f : F)
  | other
  deriving DecidableEq, Repr

variable {ε κ F A R W : Type}

/-- The hooks of an event: the tables of the priorities, and the classic style beside them. -/
structure EventTable (κ F : Type) where
  prio : Int → List (κ × Func F)
  classic : List (String × Func F)

/-- `Hooks`. -/
abbrev Hooks (ε κ F : Type) := ε → Option (EventTable κ F)

/-- The rest of the game: functions, what `tostring` makes of keys, the gamemode, and the order in
which `pairs` gives the entries of a table. -/
structure Game (ε κ F A R W : Type) where
  call : F → List A → W → Except String (Option R) × W
  callGamemode : F → List A → W → Except String (Option R) × W
  gamemode : ε → W → Option (GamemodeField F)
  eventString : ε → String
  tostring : κ → String
  pairs : List (κ × Func F) → List (κ × Func F)
  pairs_perm : ∀ t, (pairs t).Perm t

/-- `for i=-20, 20`. -/
def priorities : List Int := (List.range 41).map fun n => (n : Int) - 20

/-- The tables of a new event. -/
def EventTable.empty : EventTable κ F := ⟨fun _ => [], []⟩

def EventTable.assign [DecidableEq κ] (t : EventTable κ F) (i : Int) (name : κ)
    (func : Option (Func F)) : EventTable κ F :=
  { t with prio := fun j => if j = i then Table.set (t.prio j) name func else t.prio j }

section Registration

variable [DecidableEq ε] [DecidableEq κ] (G : Game ε κ F A R W) (hooks : Hooks ε κ F)

def setEvent (event : ε) (t : EventTable κ F) : Hooks ε κ F :=
  fun e => if e = event then some t else hooks e

/-- `hook.Add`, and whether it raises an error: a priority out of range has no table. -/
def hookAdd (event : ε) (name : κ) (func : Option (Func F)) (priority : Option Int) :
    Bool × Hooks ε κ F :=
  let t := (hooks event).getD .empty
  let i := priority.getD 0
  if i ∈ priorities then
    let t := t.assign i name func
    (false, setEvent hooks event { t with classic := Table.set t.classic (G.tostring name) func })
  else (true, setEvent hooks event t)

/-- `hook.Remove`, and whether it raises an error. -/
def hookRemove (event : ε) (name : κ) : Bool × Hooks ε κ F :=
  match hooks event with
  | none => (true, hooks)
  | some t =>
    let prio := fun i =>
      -- `false` is no entry to the test in front of the removal
      match Table.get (t.prio i) name with
      | some .false => t.prio i
      | some _ => Table.set (t.prio i) name none
      | none => t.prio i
    (false, setEvent hooks event ⟨prio, Table.set t.classic (G.tostring name) none⟩)

end Registration

/-- The state of the game as `hook.Call` changes it. -/
structure HookState (ε κ F W : Type) where
  hooks : Hooks ε κ F
  log : List String
  errorCount : ε → Nat
  world : W

inductive HookResult (R : Type) where
  | returned (v : Option R)
  | raised
  deriving DecidableEq, Repr

section Call

variable [DecidableEq ε] [DecidableEq κ] (G : Game ε κ F A R W) (event : ε) (args : List A)

/-- `pcall`, with the first result. -/
def pcall (v : Func F) (w : W) : Except String (Option R) × W :=
  match v with
  | .callable f => G.call f args w
  | .uncallable msg => (.error msg, w)
  | .false => (.error "attempt to call a boolean value", w)

/-- `HookTable[ i ][ k ] = nil`, with what is printed before. -/
def removeHook (i : Int) (k : κ) (msgs : List String) (s : HookState ε κ F W) :
    HookState ε κ F W :=
  { s with
    log := s.log ++ msgs
    hooks := fun e => if e = event then (s.hooks e).map (·.assign i k none) else s.hooks e }

/-- The hooks of one priority; the result is the value that ends the call. -/
def callTable (i : Int) : List (κ × Func F) → HookState ε κ F W → Option R × HookState ε κ F W
  | [], s => (none, s)
  | (k, v) :: rest, s =>
    let removing := "Removing Hook '" ++ G.tostring k ++ "'\n"
    if v.isFalse then
      (none, removeHook event i k
        ["ERROR: Hook '" ++ G.tostring k ++ "' tried to call a nil function!\n", removing] s)
    else
      match pcall G args v s.world with
      | (.error retval, w) =>
        callTable i rest (removeHook event i k
          ["ERROR: Hook '" ++ G.tostring k ++ "' Failed: " ++ retval ++ "\n", removing]
          { s with world := w })
      | (.ok (some retval), w) =>
        if -20 < i ∧ i < 20 then (some retval, { s with world := w })
        else callTable i rest { s with world := w }
      | (.ok none, w) => callTable i rest { s with world := w }

def callPriorities : List Int → HookState ε κ F W → Option R × HookState ε κ F W
  | [], s => (none, s)
  | i :: is, s =>
    let t := ((s.hooks event).getD .empty).prio i
    match callTable G event args i (G.pairs t) s with
    | (some retval, s) => (some retval, s)
    | (none, s) => callPriorities is s

/-- The end of `hook.Call`: the function of the gamemode. A field that is no function ends in an error,
since the module does not see `Msg`. -/
def callGamemode (s : HookState ε κ F W) : HookResult R × HookState ε κ F W :=
  match G.gamemode event s.world with
  | none => (.returned none, s)
  | some .other => (.raised, s)
  | some (.function f) =>
    match G.callGamemode f args s.world with
    | (.ok retval, w) => (.returned retval, { s with world := w })
    | (.error retval, w) =>
      (.returned none, { s with
        world := w
        errorCount := fun e => if e = event then s.errorCount e + 1 else s.errorCount e
        log := s.log ++
          ["ERROR: GAMEMODE:'" ++ G.eventString event ++ "' Failed: " ++ retval ++ "\n"] })

/-- `hook.Call`. -/
def hookCall (s : HookState ε κ F W) : HookResult R × HookState ε κ F W :=
  match s.hooks event with
  | none => callGamemode G event args s
  | some _ =>
    match callPriorities G event args priorities s with
    | (some retval, s) => (.returned (some retval), s)
    | (none, s) => callGamemode G event args s

end Call

end UgmeeLua

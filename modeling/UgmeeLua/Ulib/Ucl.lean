import Mathlib.Logic.Function.Basic
import UgmeeLua.Ulib.Hook

namespace UgmeeLua

inductive AccountType where
  | name
  | clantag
  | ip
  | steamid
  deriving DecidableEq, Repr

def AccountType.ofString (typ : String) : Option AccountType :=
  if typ = "name" then some .name
  else if typ = "clantag" then some .clantag
  else if typ = "ip" then some .ip
  else if typ = "steamid" then some .steamid
  else none

structure Acl where
  allow : Option (List String)
  deny : Option (List String)
  deriving DecidableEq, Repr

/-- What an account gives. `passReq` is what `util.tobool` makes of `pass_req`. -/
structure Grant where
  groups : List String
  acl : Acl
  pass : Option String
  passReq : Bool
  loginTime : Option Int
  deriving DecidableEq, Repr

structure Account where
  type : AccountType
  id : String
  grant : Grant
  deriving DecidableEq, Repr

/-- The table that a match is a reference to. -/
inductive Origin where
  | account (name : String)
  | listenAccess
  | defaultGrantAccess
  deriving DecidableEq, Repr

/-- The copy that is handed to a player. The program does not keep `origin`, the table that it has
been copied from: it is there for what is said about the copy. -/
structure Access where
  grant : Grant
  uniqueid : String
  account : String
  origin : Origin
  deriving DecidableEq, Repr

/-- `match.pass = pass`. -/
def Access.setPass (a : Access) (pass : Option String) : Access :=
  { a with grant := { a.grant with pass := pass } }

structure Player where
  isValid : Bool
  isConnected : Bool
  isListenServerHost : Bool
  steamID : String
  nick : String
  ipAddress : String
  uniqueID : String
  deriving DecidableEq, Repr

/-- What the functions find around them: players, settings, the groups that there are, the time, and
the order in which `pairs` gives the users. -/
structure Server (P : Type) where
  player : P → Player
  getAll : List P
  groups : String → Bool
  defaultGrantAccess : Option Grant
  listenAccess : Option Grant
  passtimeout : Int
  passtime : Int
  time : Int
  pairs : List (String × Account) → List (String × Account)
  pairs_perm : ∀ t, (pairs t).Perm t

/-- What is done besides the tables. -/
inductive Effect (P : Type) where
  | chatPrint (ply : P) (msg : String)
  | tsay (ply : Option P) (msg : String)
  | console (ply : P) (msg : String)
  | error (msg : String)
  | kick (ply : P)
  | callCallbacks (ply : P) (hasAccess : Bool)
  | passTimeoutIn (delay : Int) (ply : P) (pass : String)
  | checkAuthIn (delay : Int) (ply : P)
  | writeUser (account : String) (record : Option Account)
  deriving DecidableEq, Repr

structure Ucl (P : Type) where
  users : List (String × Account)
  authed : P → Option Access
  awaitingauth : P → Option Access
  effects : List (Effect P)

/-- `string.gsub( address, "^(.-):(.+)$", "%1" )`. -/
def stripPort (address : String) : String :=
  match address.toList.span (· ≠ ':') with
  | (host, _ :: _ :: _) => String.ofList host
  | _ => address

/-- `string.lower`. -/
def stringLower (s : String) : String := String.ofList (s.toList.map Char.toLower)

def isSpaceChar (c : Char) : Bool := c = ' ' ∨ 9 ≤ c.toNat ∧ c.toNat ≤ 13

def isQuoteChar (c : Char) : Bool := c.toNat = 34

/-- `ULib.stripQuotes`. -/
def stripQuotes (s : String) : String :=
  let front := (s.toList.dropWhile isSpaceChar).dropWhile isQuoteChar
  String.ofList ((front.reverse.dropWhile isSpaceChar).dropWhile isQuoteChar).reverse

section Probe

variable {P : Type} (S : Server P)

/-- The lookup tables: of the accounts with one type and id, the last one in the order of `pairs`. -/
def lookupUser (users : List (String × Account)) (typ : AccountType) (id : String) :
    Option (String × Account) :=
  ((S.pairs users).filter fun e => e.2.type = typ ∧ e.2.id = id).getLast?

/-- What a player matches. The loop over the clan tags goes over the integer keys of a table whose
keys are strings, and comes to none of them. -/
def findMatch (users : List (String × Account)) (ply : P) : Option (Origin × Grant) :=
  let p := S.player ply
  match lookupUser S users .steamid p.steamID <|> lookupUser S users .ip (stripPort p.ipAddress) <|>
    lookupUser S users .name p.nick with
  | some (account, a) => some (.account account, a.grant)
  | none =>
    if p.isListenServerHost then S.listenAccess.map fun g => (.listenAccess, g)
    else S.defaultGrantAccess.map fun g => (.defaultGrantAccess, g)

def validGroups (groups : List String) : List String := groups.filter S.groups

/-- The copy of a match for a player. Where none of its groups exists it is one of the default, and
where there is no default the copy is nil, and the next statement raises an error. -/
def copyMatch (ply : P) (m : Origin × Grant) : Option Access :=
  let p := S.player ply
  let account := match m.1 with
    | .account name => name
    | _ => p.nick
  let groups := validGroups S m.2.groups
  if groups.length = 0 then
    S.defaultGrantAccess.map fun g => ⟨g, p.uniqueID, account, .defaultGrantAccess⟩
  else some ⟨{ m.2 with groups := groups }, p.uniqueID, account, m.1⟩

end Probe

inductive ProbeResult where
  | nothing
  | access (m : Origin × Grant)
  | raised
  deriving DecidableEq, Repr

/-- The record that `ucl.addUser` makes. -/
def newAccount (typ : AccountType) (id : String) (groups : List String) (acl : Option Acl)
    (pass : Option String) (passReq : Bool) : Account :=
  let acl := acl.getD ⟨none, none⟩
  ⟨typ, id, groups, ⟨some (acl.allow.getD []), some (acl.deny.getD [])⟩, some (pass.getD ""),
    passReq, none⟩

namespace Ucl

variable {P : Type} [DecidableEq P] (S : Server P)

def does (l : List (Effect P)) (u : Ucl P) : Ucl P := { u with effects := u.effects ++ l }

/-- Giving a player access. -/
def authorize (ply : P) (a : Access) (u : Ucl P) : Ucl P :=
  { u with authed := Function.update u.authed ply (some a) }.does
    [.chatPrint ply "[UCL] Access set.", .callCallbacks ply true]

/-- Putting a player on the awaiting list. -/
def await (ply : P) (a : Access) (u : Ucl P) : Ucl P :=
  { u with awaitingauth := Function.update u.awaitingauth ply (some a) }.does
    (if a.grant.passReq then
      [.tsay (some ply) ("[UCL] You *MUST* enter your user password using the command \"_pw\" within "
        ++ toString S.passtime ++ " seconds, or be kicked."), .checkAuthIn S.passtime ply]
    else
      [.tsay (some ply) ("[UCL] Please enter your user password using the command \"_pw\" to claim "
        ++ "your admin access.")])

/-- The allocation of access at the end of `ucl.probe`. -/
def allocate (ply : P) (a : Access) (u : Ucl P) : Ucl P :=
  match a.grant.pass with
  | none => u.authorize ply (a.setPass none)
  | some pass =>
    if pass = "" then u.authorize ply (a.setPass none)
    else
      match a.grant.loginTime with
      | none => u.await S ply a
      | some loginTime =>
        if loginTime + S.passtimeout * 60 > S.time then
          (u.authorize ply a).does
            [.passTimeoutIn (S.passtimeout * 60 - (S.time - loginTime)) ply pass]
        else u.await S ply a

/-- `ucl.probe`. -/
def probe (ply : P) (check force : Bool) (u : Ucl P) : ProbeResult × Ucl P :=
  if !check && !force && ((u.authed ply).isSome || (u.awaitingauth ply).isSome) then (.nothing, u)
  else
    match findMatch S u.users ply with
    | none =>
      if check then (.nothing, u)
      else (.nothing, u.does [.callCallbacks ply (u.authed ply).isSome])
    | some m =>
      if check then (.access m, u)
      else
        match copyMatch S ply m with
        | none => (.raised, u)
        | some a => (.nothing, u.allocate S ply a)

/-- Forced probes of some players; an error ends them. -/
def probeEach : List P → Ucl P → Bool × Ucl P
  | [], u => (false, u)
  | ply :: rest, u =>
    match u.probe S ply false true with
    | (.raised, u) => (true, u)
    | (_, u) => probeEach rest u

/-- The players whom `ucl.addUser` and `ucl.removeUser` probe for an account. -/
def reprobed (typ : AccountType) (id : String) : List P :=
  let connected := S.getAll.filter fun p => (S.player p).isConnected
  match typ with
  | .name => (connected.find? fun p => (S.player p).nick = id).toList
  | .clantag => connected.filter fun p =>
      (stringLower (S.player p).nick).toList.tails.any (stringLower id).toList.isPrefixOf
  | .ip => (connected.find? fun p => stripPort (S.player p).ipAddress = id).toList
  | .steamid => connected.filter fun p => (S.player p).steamID = id

/-- `ucl.users[ account ] = record`. -/
def setUser (account : String) (record : Option Account) (u : Ucl P) : Ucl P :=
  { u with users := Table.set u.users account record }

/-- `ucl.addUser`, and whether an error has been raised. The tests of the types of the arguments have
no part in it. -/
def addUser (account typ id : String) (groups : List String) (acl : Option Acl)
    (pass : Option String) (passReq write : Bool) (u : Ucl P) : Bool × Ucl P :=
  let typ := stringLower typ
  match AccountType.ofString typ with
  | none => (false, u.does [.error ("Invalid user type: " ++ typ ++ " for account: " ++ account)])
  | some t =>
    let u := u.setUser account (some (newAccount t id groups acl pass passReq))
    match u.probeEach S (reprobed S t id) with
    | (true, u) => (true, u)
    | (false, u) =>
      (false, if write then u.does [.writeUser account (Table.get u.users account)] else u)

/-- `ucl.removeUser`, and whether an error has been raised. -/
def removeUser (account : String) (write : Bool) (u : Ucl P) : Bool × Ucl P :=
  match Table.get u.users account with
  | none => (false, u.does [.error ("removeUser was passed a non-existant account " ++ account)])
  | some record =>
    let u := u.setUser account none
    match u.probeEach S (reprobed S record.type record.id) with
    | (true, u) => (true, u)
    | (false, u) => (false, if write then u.does [.writeUser account none] else u)

/-- `ucl.checkPass`, the command `_pw`. -/
def checkPass (ply : P) (args : String) (u : Ucl P) : Ucl P :=
  match u.awaitingauth ply with
  | none =>
    if (u.authed ply).isSome then u.does [.console ply "[UCL] You are already authenticated."]
    else u.does [.console ply
      "[UCL] Why are you trying to enter a password when you have no access at all?"]
  | some a =>
    let pass := stripQuotes args
    if some pass = a.grant.pass then
      { u with
        authed := Function.update u.authed ply (some (a.setPass none))
        awaitingauth := Function.update u.awaitingauth ply none }.does
        [.passTimeoutIn (S.passtimeout * 60) ply pass,
          .console ply "[UCL] Correct password, thank you!", .callCallbacks ply true]
    else u.does [.console ply "[UCL] Incorrect password, please try again."]

/-- What happens to the tables when a timer finds that the player is gone. -/
def forget (ply : P) (u : Ucl P) : Ucl P :=
  { u with
    authed := Function.update u.authed ply none
    awaitingauth := Function.update u.awaitingauth ply none }

/-- `not ply:IsValid() or not ply:IsConnected()`. -/
def gone (ply : P) : Bool := !(S.player ply).isValid || !(S.player ply).isConnected

/-- `ucl.checkAuth`, which a timer calls. -/
def checkAuth (ply : P) (u : Ucl P) : Ucl P :=
  let u := if gone S ply then u.forget ply else u
  match u.awaitingauth ply with
  | none => u
  | some a =>
    if (S.player ply).uniqueID ≠ a.uniqueid then u
    else u.does [.console ply "[UCL] Password timeout, good bye.", .kick ply,
      .tsay none ("[UCL] " ++ (S.player ply).nick ++ " was kicked due to password timeout.")]

/-- `ucl.passTimeout`, which a timer calls. -/
def passTimeout (ply : P) (pass : String) (u : Ucl P) : Ucl P :=
  let u := if gone S ply then u.forget ply else u
  match u.authed ply with
  | none => u
  | some a =>
    if a.uniqueid ≠ (S.player ply).uniqueID then u
    else
      { u with
        authed := Function.update u.authed ply none
        awaitingauth := Function.update u.awaitingauth ply (some (a.setPass (some pass))) }.does
        [.tsay (some ply) ("[UCL] Your password has timed out, please enter your user password " ++
          "using the command \"_pw\" to reclaim your admin access.")]

/-- `ucl_initialspawn`, and whether an error has been raised. -/
def initialspawn (ply : P) (u : Ucl P) : Bool × Ucl P :=
  match (u.forget ply).probe S ply false false with
  | (.raised, u) => (true, u)
  | (_, u) => (false, u)

end Ucl

section Hooks

variable {P : Type} [DecidableEq P]

/-- The functions that are registered as hooks and change the tables. -/
inductive UclHook where
  | initialspawn
  deriving DecidableEq, Repr

/-- The hooks at work: they are called with the player. -/
def uclGame (S : Server P) : Game String String UclHook P Unit (Ucl P) where
  call _ args u :=
    match args with
    | [] => (.error "table index is nil", u)
    | ply :: _ =>
      match u.initialspawn S ply with
      | (true, u) => (.error "attempt to index local 'match' (a nil value)", u)
      | (false, u) => (.ok none, u)
  callGamemode _ _ u := (.ok none, u)
  gamemode _ _ := none
  eventString event := event
  tostring name := name
  pairs t := t
  pairs_perm _ := List.Perm.refl _

/-- The hooks of this file. `userDisconnect` is a global that does not exist. -/
def uclHooks (S : Server P) : Hooks String String UclHook :=
  let hooks := (hookAdd (uclGame S) (fun _ => none) "PlayerInitialSpawn" "ucl_initialspawn"
    (some (.callable .initialspawn)) none).2
  (hookAdd (uclGame S) hooks "PlayerDisconnected" "routeUserDisconnect" none none).2

/-- An event of a player goes through the hooks. -/
def dispatch (S : Server P) (event : String) (ply : P) (s : HookState String String UclHook (Ucl P)) :
    HookState String String UclHook (Ucl P) :=
  (hookCall (uclGame S) event [ply] s).2

end Hooks

end UgmeeLua

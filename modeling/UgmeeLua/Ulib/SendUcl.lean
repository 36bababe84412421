import UgmeeLua.Lib.Batches

namespace UgmeeLua.SendUcl

abbrev Access := List UInt8

/-- The messages that carry accesses: `ULibAllowUCL` and `ULibDenyUCL`. -/
inductive Title where
  | allow
  | deny
  deriving DecidableEq, Repr

/-- What is sent of a user or a group. -/
structure Acl where
  allow : Option (List Access)
  deny : Option (List Access)
  deriving DecidableEq, Repr

def Acl.get (acl : Acl) : Title → Option (List Access)
  | .allow => acl.allow
  | .deny => acl.deny

def Acl.set (acl : Acl) (list : List Access) : Title → Acl
  | .allow => { acl with allow := some list }
  | .deny => { acl with deny := some list }

/-- Whose table it is: that of a player, or of a group. -/
inductive Owner (P : Type) where
  | user (ply : P)
  | group (name : Access)
  deriving DecidableEq

/-- A message: the table of an owner without its accesses, or some of its accesses with their count. -/
inductive Message (P : Type) where
  | table (owner : Owner P) (basicinfo : Acl)
  | accesses (title : Title) (num : Int) (strings : List Access)
  | finished

def maxSize : Nat := 235

def len (access : Access) : Nat := access.length + 1

section Server

variable {P : Type}

/-- The variables of the loop, and what has been sent. -/
structure Sending (P : Type) where
  t : List Access
  totalsize : Nat
  sent : List (Message P)

def Sending.flush (title : Title) (s : Sending P) : Sending P :=
  { t := [], totalsize := 0, sent := s.sent ++ [.accesses title s.t.length s.t] }

def Sending.insert (access : Access) (s : Sending P) : Sending P :=
  { s with t := s.t ++ [access], totalsize := s.totalsize + len access }

def sendAccess (title : Title) (s : Sending P) (access : Access) : Sending P :=
  if len access + s.totalsize > maxSize then (s.flush title).insert access else s.insert access

def sendAccesses (title : Title) (accesses : List Access) : List (Message P) :=
  let s := accesses.foldl (sendAccess title) { t := [], totalsize := 0, sent := [] }
  if s.t.length > 0 then (s.flush title).sent else s.sent

/-- The order in which `pairs` goes through the two titles. -/
inductive Order where
  | allowFirst
  | denyFirst

def Order.titles : Order → List Title
  | .allowFirst => [.allow, .deny]
  | .denyFirst => [.deny, .allow]

/-- `sendUCL`. -/
def sendUCL (order : Order) (acl : Acl) : List (Message P) :=
  order.titles.flatMap fun title =>
    match acl.get title with
    | some accesses => sendAccesses title accesses
    | none => []

/-- What `ucl.initClient` sends of a table before its accesses. -/
def basicinfo (acl : Acl) : Acl := { acl with allow := none, deny := none }

end Server

/-- A number is sent as a signed char: one that fits is received as it is. -/
structure Transport where
  char : Int → Int
  fits : ∀ n, -128 ≤ n → n ≤ 127 → char n = n
  range : ∀ n, -128 ≤ char n ∧ char n ≤ 127

section Client

variable {P : Type} [DecidableEq P]

/-- The tables of a client, and the one that was announced last. -/
structure Client (P : Type) where
  tables : Owner P → Option Acl
  curTable : Option (Owner P)

/-- `ucl.rcvUserData` and `ucl.rcvGroupData`. -/
def rcvTable (c : Client P) (owner : Owner P) (info : Acl) : Client P :=
  { tables := Function.update c.tables owner (some info), curTable := some owner }

/-- `ucl.rcvAllows` and `ucl.rcvDenies`. There is no result without a table, and of the strings only `num` are
read. -/
def rcvAccesses (c : Client P) (title : Title) (num : Int) (strings : List Access) : Option (Client P) := do
  let owner ← c.curTable
  let acl ← c.tables owner
  let list := (acl.get title).getD []
  pure { c with tables := Function.update c.tables owner (some (acl.set (list ++ strings.take num.toNat) title)) }

def rcvFinished (c : Client P) : Client P := { c with curTable := none }

def receive (tr : Transport) (c : Client P) : Message P → Option (Client P)
  | .table owner info => some (rcvTable c owner info)
  | .accesses title num strings => rcvAccesses c title (tr.char num) strings
  | .finished => some (rcvFinished c)

def receiveAll (tr : Transport) (c : Client P) (messages : List (Message P)) : Option (Client P) :=
  messages.foldlM (receive tr) c

end Client

end UgmeeLua.SendUcl

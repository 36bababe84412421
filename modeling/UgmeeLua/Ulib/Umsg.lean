import Mathlib.Algebra.Ring.Int.Defs
import Mathlib.Data.List.Basic

namespace UgmeeLua.Umsg

def TYPE_ANGLE : Int := 1
def TYPE_BOOLEAN : Int := 2
def TYPE_CHAR : Int := 3
def TYPE_ENTITY : Int := 4
def TYPE_FLOAT : Int := 5
def TYPE_LONG : Int := 6
def TYPE_SHORT : Int := 7
def TYPE_STRING : Int := 8
def TYPE_VECTOR : Int := 9
def TYPE_TABLE_BEGIN : Int := 10
def TYPE_TABLE_END : Int := 11
def TYPE_NIL : Int := 12

/-- The types whose values go through as they are: numbers with a fraction, and those of the game. -/
inductive Kind where
  | angle
  | entity
  | float
  | vector
  deriving DecidableEq, Repr

def Kind.tag : Kind → Int
  | .angle => TYPE_ANGLE
  | .entity => TYPE_ENTITY
  | .float => TYPE_FLOAT
  | .vector => TYPE_VECTOR

mutual

/-- A value. `obj` holds one of `X` of a kind, and `other` one of a type that cannot be sent. A table is
its entries in the order of `pairs`. -/
inductive Value (X : Type) where
  | nil
  | bool (b : Bool)
  | str (s : List Char)
  | num (n : Int)
  | obj (kind : Kind) (x : X)
  | other (tv : String)
  | table (t : Entries X)

inductive Entries (X : Type) where
  | nil
  | cons (key value : Value X) (rest : Entries X)

end

/-- What a message carries, piece by piece. -/
inductive Item (X : Type) where
  | char (n : Int)
  | short (n : Int)
  | long (n : Int)
  | bool (b : Bool)
  | string (s : List Char)
  | obj (kind : Kind) (x : X)
  deriving DecidableEq

variable {X : Type}

mutual

/-- `ULib.umsgSend`. `ULib.error` prints a message, and nothing is sent. -/
def umsgSend : Value X → List (Item X)
  | .str s => [.char TYPE_STRING, .string s]
  | .num v =>
    if v ≤ 127 ∧ v ≥ -127 then [.char TYPE_CHAR, .char v]
    else if v < 32767 ∧ v > -32768 then [.char TYPE_SHORT, .short v]
    else [.char TYPE_LONG, .long v]
  | .bool b => [.char TYPE_BOOLEAN, .bool b]
  | .obj kind x => [.char kind.tag, .obj kind x]
  | .table t => .char TYPE_TABLE_BEGIN :: sendEntries t ++ [.char TYPE_TABLE_END]
  | .nil => [.char TYPE_NIL]
  | .other _ => []

def sendEntries : Entries X → List (Item X)
  | .nil => []
  | .cons key value rest => umsgSend key ++ umsgSend value ++ sendEntries rest

end

variable [DecidableEq X]

/-- Whether two keys are the same key. Of two tables that have been received neither is the other. -/
def sameKey : Value X → Value X → Bool
  | .bool a, .bool b => a = b
  | .str a, .str b => a = b
  | .num a, .num b => a = b
  | .obj kind x, .obj kind' y => kind = kind' ∧ x = y
  | _, _ => false

def Entries.set (key v : Value X) : Entries X → Entries X
  | .nil => .cons key v .nil
  | .cons k x rest => if sameKey k key then .cons k v rest else .cons k x (rest.set key v)

def Entries.erase (key : Value X) : Entries X → Entries X
  | .nil => .nil
  | .cons k x rest => if sameKey k key then rest else .cons k x (rest.erase key)

/-- `ret[ key ] = v`. -/
def Entries.store (key v : Value X) (ret : Entries X) : Entries X :=
  match v with
  | .nil => ret.erase key
  | v => ret.set key v

mutual

/-- `ULib.umsgRcv`: the value, and what is left of the message. There is no result where something else is
next in the message than what is read. -/
def rcv : Nat → List (Item X) → Option (Value X × List (Item X))
  | 0, _ => none
  | fuel + 1, .char tv :: um =>
    if tv = TYPE_STRING then
      match um with
      | .string s :: um => some (.str s, um)
      | _ => none
    else if tv = TYPE_FLOAT then readObj .float um
    else if tv = TYPE_SHORT then
      match um with
      | .short n :: um => some (.num n, um)
      | _ => none
    else if tv = TYPE_LONG then
      match um with
      | .long n :: um => some (.num n, um)
      | _ => none
    else if tv = TYPE_BOOLEAN then
      match um with
      | .bool b :: um => some (.bool b, um)
      | _ => none
    else if tv = TYPE_ENTITY then readObj .entity um
    else if tv = TYPE_VECTOR then readObj .vector um
    else if tv = TYPE_ANGLE then readObj .angle um
    else if tv = TYPE_CHAR then
      match um with
      | .char n :: um => some (.num n, um)
      | _ => none
    else if tv = TYPE_TABLE_BEGIN then (rcvTable fuel .nil um).map fun p => (.table p.1, p.2)
    else if tv = TYPE_TABLE_END then some (.nil, um)
    else some (.nil, um)
  | _ + 1, _ => none
where
  readObj (kind : Kind) : List (Item X) → Option (Value X × List (Item X))
    | .obj kind' x :: um => if kind = kind' then some (.obj kind x, um) else none
    | _ => none

/-- The loop for a table. -/
def rcvTable : Nat → Entries X → List (Item X) → Option (Entries X × List (Item X))
  | 0, _, _ => none
  | fuel + 1, ret, um =>
    match rcv fuel um with
    | none => none
    | some (.nil, um) => some (ret, um)
    | some (key, um) =>
      match rcv fuel um with
      | none => none
      | some (v, um) => rcvTable fuel (ret.store key v) um

end

def umsgRcv (um : List (Item X)) : Option (Value X × List (Item X)) := rcv (2 * um.length + 1) um

omit [DecidableEq X] in
theorem umsgSend_table (t : Entries X) :
    umsgSend (.table t) = .char TYPE_TABLE_BEGIN :: (sendEntries t ++ [.char TYPE_TABLE_END]) := rfl

def Entries.append : Entries X → Entries X → Entries X
  | .nil, t => t
  | .cons key v rest, t => .cons key v (rest.append t)

/-- The key is none of the keys of the table. -/
def Entries.Fresh (key : Value X) : Entries X → Prop
  | .nil => True
  | .cons k _ rest => sameKey k key = false ∧ rest.Fresh key

/-- The keys of the second table are none of the first. -/
def Entries.Apart (ret : Entries X) : Entries X → Prop
  | .nil => True
  | .cons key _ rest => ret.Fresh key ∧ ret.Apart rest

mutual

/-- What is built from booleans, strings without NUL, integers of 32 bits and tables of these. -/
def Sendable : Value X → Prop
  | .bool _ => True
  | .str s => '\x00' ∉ s
  | .num n => -2 ^ 31 ≤ n ∧ n < 2 ^ 31
  | .table t => EntriesSendable t
  | _ => False

def EntriesSendable : Entries X → Prop
  | .nil => True
  | .cons key v rest =>
    Sendable key ∧ Sendable v ∧ (Entries.cons key v .nil).Apart rest ∧ EntriesSendable rest

end

variable {ret t : Entries X} {key v : Value X}

theorem Entries.set_fresh (ret : Entries X) (h : ret.Fresh key) :
    ret.set key v = ret.append (.cons key v .nil) := by
  match ret with
  | .nil => rfl
  | .cons k x rest => rw [set, if_neg (by simp [h.1]), append, Entries.set_fresh rest h.2]

omit [DecidableEq X] in
theorem Entries.append_assoc (ret t t' : Entries X) :
    (ret.append t).append t' = ret.append (t.append t') := by
  match ret with
  | .nil => rfl
  | .cons k x rest => rw [append, append, append, Entries.append_assoc rest]

omit [DecidableEq X] in
theorem Entries.append_nil (ret : Entries X) : ret.append .nil = ret := by
  match ret with
  | .nil => rfl
  | .cons k x rest => rw [append, Entries.append_nil rest]

theorem Entries.fresh_append (ret : Entries X) (h : ret.Fresh key) (ht : t.Fresh key) :
    (ret.append t).Fresh key := by
  match ret with
  | .nil => exact ht
  | .cons k x rest => exact ⟨h.1, Entries.fresh_append rest h.2 ht⟩

theorem Entries.apart_append {ret ret' : Entries X} (t : Entries X) (h : ret.Apart t)
    (h' : ret'.Apart t) : (ret.append ret').Apart t := by
  match t with
  | .nil => trivial
  | .cons k x rest => exact ⟨fresh_append ret h.1 h'.1, Entries.apart_append rest h.2 h'.2⟩

theorem Entries.nil_apart (t : Entries X) : Entries.nil.Apart t := by
  match t with
  | .nil => trivial
  | .cons k x rest => exact ⟨trivial, Entries.nil_apart rest⟩

theorem store_of_sendable (h : Sendable v) : ret.store key v = ret.set key v := by
  cases v with
  | nil => exact absurd h id
  | _ => rfl

theorem length_umsgSend (h : Sendable v) : 2 ≤ (umsgSend v).length := by
  cases v with
  | nil | obj | other => exact absurd h (by simp [Sendable])
  | bool | str => simp [umsgSend]
  | num n =>
    unfold umsgSend
    split_ifs <;> simp
  | table t => simp [umsgSend_table]

/-- One more entry. -/
theorem rcvTable_entry {fuel : Nat} {um um' um'' : List (Item X)} (hkey : Sendable key)
    (hk : rcv fuel um = some (key, um')) (hv : rcv fuel um' = some (v, um'')) :
    rcvTable (fuel + 1) ret um = rcvTable fuel (ret.store key v) um'' := by
  rw [rcvTable, hk]
  cases key with
  | nil => exact absurd hkey id
  | _ => simp only [hv]

theorem rcv_num (fuel : Nat) (n : Int) (rest : List (Item X)) :
    rcv (fuel + 1) (umsgSend (.num n) ++ rest) = some (.num n, rest) := by
  unfold umsgSend
  split_ifs <;> rfl

mutual

/-- A value is received as it was sent, and nothing is read after it. -/
theorem rcv_umsgSend (v : Value X) (h : Sendable v) (fuel : Nat) (hfuel : (umsgSend v).length < fuel)
    (rest : List (Item X)) : rcv fuel (umsgSend v ++ rest) = some (v, rest) := by
  obtain ⟨fuel, rfl⟩ : ∃ n, fuel = n + 1 := ⟨fuel - 1, by omega⟩
  match v with
  | .nil | .obj _ _ | .other _ => exact absurd h (by simp [Sendable])
  | .bool b => rfl
  | .str s => rfl
  | .num n => exact rcv_num fuel n rest
  | .table t =>
    rw [umsgSend_table, List.length_cons, List.length_append, List.length_singleton] at hfuel
    have htable := rcvTable_sendEntries t h fuel (by omega) .nil rest t.nil_apart
    rw [umsgSend_table, List.cons_append, List.append_assoc, List.singleton_append]
    exact congrArg (Option.map fun p => (Value.table p.1, p.2)) htable

theorem rcvTable_sendEntries (t : Entries X) (h : EntriesSendable t) (fuel : Nat)
    (hfuel : (sendEntries t).length + 1 < fuel) (ret : Entries X) (rest : List (Item X))
    (hapart : ret.Apart t) :
    rcvTable fuel ret (sendEntries t ++ .char TYPE_TABLE_END :: rest) = some (ret.append t, rest) := by
  obtain ⟨fuel, rfl⟩ : ∃ n, fuel = n + 1 := ⟨fuel - 1, by omega⟩
  match t with
  | .nil =>
    obtain ⟨fuel, rfl⟩ : ∃ n, fuel = n + 1 := ⟨fuel - 1, by omega⟩
    rw [ret.append_nil]
    rfl
  | .cons key v more =>
    obtain ⟨hkey, hv, hnew, hmore⟩ := h
    have hklen := length_umsgSend hkey
    rw [sendEntries, List.length_append, List.length_append] at hfuel
    have hk := rcv_umsgSend key hkey fuel (by omega)
      (umsgSend v ++ (sendEntries more ++ .char TYPE_TABLE_END :: rest))
    have hx := rcv_umsgSend v hv fuel (by omega) (sendEntries more ++ .char TYPE_TABLE_END :: rest)
    have hnext : (ret.append (.cons key v .nil)).Apart more := Entries.apart_append more hapart.2 hnew
    rw [sendEntries, List.append_assoc, List.append_assoc, rcvTable_entry hkey hk hx, store_of_sendable hv,
      ret.set_fresh hapart.1, rcvTable_sendEntries more hmore fuel (by omega) _ rest hnext,
      Entries.append_assoc]
    rfl

end

/-- What is sent is received, and what follows it is left. -/
theorem umsgRcv_umsgSend (v : Value X) (h : Sendable v) (rest : List (Item X)) :
    umsgRcv (umsgSend v ++ rest) = some (v, rest) := by
  refine rcv_umsgSend v h _ ?_ rest
  rw [List.length_append]
  omega

/-- What is left is shorter. -/
theorem rcv_shorter (fuel : Nat) :
    (∀ (um : List (Item X)) (v : Value X) (um' : List (Item X)),
      rcv fuel um = some (v, um') → um'.length < um.length) ∧
    ∀ (ret : Entries X) (um : List (Item X)) (t : Entries X) (um' : List (Item X)),
      rcvTable fuel ret um = some (t, um') → um'.length < um.length := by
  induction fuel with
  | zero => exact ⟨fun _ _ _ h => by simp [rcv] at h, fun _ _ _ _ h => by simp [rcvTable] at h⟩
  | succ fuel ih =>
    obtain ⟨ihvalue, ihtable⟩ := ih
    constructor
    · intro um v um' h
      have hobj : ∀ (kind : Kind) (um : List (Item X)), rcv.readObj kind um = some (v, um') →
          um'.length < um.length := by
        intro kind um h
        unfold rcv.readObj at h
        grind
      match um with
      | [] => simp [rcv] at h
      | .char tv :: um =>
        by_cases htable : tv = TYPE_TABLE_BEGIN
        · subst htable
          obtain ⟨⟨t, um''⟩, ht, heq⟩ := Option.map_eq_some_iff.mp
            (h : (rcvTable fuel .nil um).map (fun p => (Value.table p.1, p.2)) = _)
          obtain ⟨rfl, rfl⟩ := Prod.mk.inj heq
          exact Nat.lt_succ_of_lt (ihtable _ _ _ _ ht)
        · simp only [rcv, if_neg htable] at h
          split_ifs at h <;> grind
      | .short _ :: _ | .long _ :: _ | .bool _ :: _ | .string _ :: _ | .obj _ _ :: _ => simp [rcv] at h
    · intro ret um t um' h
      rw [rcvTable] at h
      split at h
      · exact absurd h (by simp)
      · rename_i um₁ hk
        obtain ⟨rfl, rfl⟩ := Prod.mk.inj (Option.some_inj.mp h)
        exact ihvalue _ _ _ hk
      · rename_i key um₁ _ hk
        split at h
        · exact absurd h (by simp)
        · rename_i v um₂ hv
          have := ihvalue _ _ _ hk
          have := ihvalue _ _ _ hv
          have := ihtable _ _ _ _ h
          omega

/-- There is no result for want of steps. -/
theorem rcv_enough (fuel : Nat) :
    (∀ (um : List (Item X)) (fuel' : Nat), 2 * um.length < fuel → fuel ≤ fuel' → rcv fuel um = rcv fuel' um) ∧
    ∀ (ret : Entries X) (um : List (Item X)) (fuel' : Nat), 2 * um.length + 1 < fuel → fuel ≤ fuel' →
      rcvTable fuel ret um = rcvTable fuel' ret um := by
  induction fuel with
  | zero => exact ⟨fun _ _ h => by omega, fun _ _ _ h => by omega⟩
  | succ fuel ih =>
    obtain ⟨ihvalue, ihtable⟩ := ih
    constructor
    · intro um fuel' hlen hle
      obtain ⟨fuel', rfl⟩ : ∃ n, fuel' = n + 1 := ⟨fuel' - 1, by omega⟩
      match um with
      | [] => rfl
      | .char tv :: um =>
        simp only [List.length_cons] at hlen
        have htable := ihtable .nil um fuel' (by omega) (by omega)
        unfold rcv
        simp only [htable]
      | .short _ :: _ | .long _ :: _ | .bool _ :: _ | .string _ :: _ | .obj _ _ :: _ => rfl
    · intro ret um fuel' hlen hle
      obtain ⟨fuel', rfl⟩ : ∃ n, fuel' = n + 1 := ⟨fuel' - 1, by omega⟩
      rw [rcvTable, rcvTable, ← ihvalue um fuel' (by omega) (by omega)]
      cases hk : rcv fuel um with
      | none => rfl
      | some p =>
        obtain ⟨key, um₁⟩ := p
        have hshort := (rcv_shorter fuel).1 _ _ _ hk
        have hrest : ∀ key : Value X, (match rcv fuel um₁ with
            | none => none
            | some (v, um) => rcvTable fuel (ret.store key v) um) = match rcv fuel' um₁ with
            | none => none
            | some (v, um) => rcvTable fuel' (ret.store key v) um := by
          intro key
          rw [← ihvalue um₁ fuel' (by omega) (by omega)]
          cases hv : rcv fuel um₁ with
          | none => rfl
          | some p =>
            have hshort' := (rcv_shorter fuel).1 _ _ _ hv
            exact ihtable _ _ fuel' (by omega) (by omega)
        cases key with
        | nil => rfl
        | _ => exact hrest _

theorem rcv_eq_umsgRcv (um : List (Item X)) (fuel : Nat) (h : 2 * um.length < fuel) : rcv fuel um = umsgRcv um :=
  ((rcv_enough _).1 um fuel (Nat.lt_succ_self _) h).symm

end UgmeeLua.Umsg

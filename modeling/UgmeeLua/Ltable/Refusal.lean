import UgmeeLua.Ltable.Maps

namespace UgmeeLua.Ltable.Refusal

open Scatter Ltable.Table LawfulNumber

variable {N : Type}

/-- The requests for memory that `resize` makes. A smaller array needs none: the allocator cannot refuse
a reallocation to a smaller size. -/
inductive Site where
  | array
  | nodes
  deriving DecidableEq, Repr

/-- A request of a `rehash` or a `luaH_resizearray`; `path` has the keys that are being inserted, the one
of the innermost rehash first. -/
structure Request (N : Type) where
  path : List (TValue N)
  site : Site

/-- How a table operation stops: the allocator refuses a request, or the node vector asked for is too
large, and the table is left as it is by then; or as without refusals. -/
inductive Stop (N : Type) where
  | raised (r : Request N) (t : Table N)
  | failure (f : Failure)

abbrev Newkey (N : Type) := Table N → TValue N → Except (Stop N) (Slot × Table N)

/-- The answers of the allocator to the requests. -/
abbrev Allocator (N : Type) := List (TValue N) → Site → Bool

def lift {α : Type} : Except Failure α → Except (Stop N) α
  | .ok a => .ok a
  | .error f => .error (.failure f)

/-- What is left of a stop without the request and the table. -/
def Stop.forget : Stop N → Failure
  | .raised _ _ => .raised "table overflow"
  | .failure f => f

section Operations

variable (granted : Allocator N) (path : List (TValue N))

def setarrayvector (size : Nat) (t : Table N) : Except (Stop N) (Table N) :=
  if granted path .array then .ok (Ltable.setarrayvector size t)
  else .error (.raised ⟨path, .array⟩ t)

def setnodevector (size : Nat) (t : Table N) : Except (Stop N) (Table N) :=
  if size = 0 then
    .ok { t with node := fun _ => emptyNode, isDummy := true, lsizenode := 0, lastfree := 0 }
  else
    let lsize := ceillog2 size
    if lsize > MAXBITS then .error (.raised ⟨path, .nodes⟩ t)
    else if granted path .nodes then
      .ok { t with node := fun _ => emptyNode, isDummy := false, lsizenode := lsize, lastfree := 2 ^ lsize }
    else .error (.raised ⟨path, .nodes⟩ t)

variable [LuaNumber N] (hash : TValue N → Nat) (newkey : Newkey N)

def setWith (t : Table N) (key : TValue N) : Except (Stop N) (Slot × Table N) :=
  match luaHGet hash t key with
  | some p => .ok (p, t)
  | none =>
    match key with
    | .nil => .error (.failure (.raised "table index is nil"))
    | .number n =>
      if luaiNumisnan n then .error (.failure (.raised "table index is NaN")) else newkey t key
    | _ => newkey t key

def setnumWith (t : Table N) (key : BitVec 32) : Except (Stop N) (Slot × Table N) :=
  match luaHGetnum hash t key with
  | some p => .ok (p, t)
  | none => newkey t (.number (castNum key))

def reinsertArray : List Nat → Table N → Except (Stop N) (Table N)
  | [], t => .ok t
  | i :: is, t => do
    let v ← lift (t.read (.array i))
    if v.isNil then reinsertArray is t
    else
      let (s, t) ← setnumWith hash newkey t (BitVec.ofNat 32 (i + 1))
      let v ← lift (t.read (.array i))
      let t ← lift (t.write v s)
      reinsertArray is t

def reinsertNodes (nold : Nat → Node N) : List Nat → Table N → Except (Stop N) (Table N)
  | [], t => .ok t
  | i :: is, t =>
    if (nold i).val.isNil then reinsertNodes nold is t
    else do
      let (s, t) ← setWith hash newkey t (nold i).key
      let t ← lift (t.write (nold i).val s)
      reinsertNodes nold is t

def shrinkArray (nasize oldasize : Nat) (t : Table N) : Except (Stop N) (Table N) :=
  if nasize < oldasize then do
    let t ← reinsertArray hash newkey (List.range' nasize (oldasize - nasize))
      { t with sizearray := nasize }
    .ok { t with allocated := nasize }
  else .ok t

def growArray (nasize oldasize : Nat) (t : Table N) : Except (Stop N) (Table N) :=
  if nasize > oldasize then setarrayvector granted path nasize t else .ok t

def resize (t : Table N) (nasize nhsize : Nat) : Except (Stop N) (Table N) := do
  let oldasize := t.sizearray
  let oldhsize := t.lsizenode
  let nold := t.node
  let t ← growArray granted path nasize oldasize t
  let t ← setnodevector granted path nhsize t
  let t ← shrinkArray hash newkey nasize oldasize t
  reinsertNodes hash newkey nold (List.range (2 ^ oldhsize)).reverse t

def rehash (t : Table N) (ek : TValue N) : Except (Stop N) (Table N) :=
  let (nasize, nhsize) := rehashSizes t ek
  resize granted path hash newkey t nasize nhsize

def newkeyStep (t : Table N) (key : TValue N) : Except (Stop N) (Slot × Table N) :=
  let mp := mainposition hash t key
  if !(t.node mp).val.isNil || t.isDummy then
    match getfreepos t t.lastfree with
    | (none, lastfree) => do
      let t ← rehash granted path hash newkey { t with lastfree := lastfree } key
      setWith hash newkey t key
    | (some n, lastfree) =>
      let t := { t with lastfree := lastfree }
      let othern := mainposition hash t (t.node mp).key
      if othern ≠ mp then .ok (putKey (moveNode t mp n othern) mp key)
      else .ok (putKey (chainNode t mp n) n key)
  else .ok (putKey t mp key)

/-- `newkey`, with calls nested as deep as is asked for, where the keys of `path` are being inserted. -/
def newkeyAt (granted : Allocator N) (hash : TValue N → Nat) :
    Nat → List (TValue N) → Newkey N
  | 0, _ => fun _ _ => .error (.failure .tooDeep)
  | depth + 1, path => fun t key =>
    newkeyStep granted (key :: path) hash (newkeyAt granted hash depth (key :: path)) t key

def luaHSet (depth : Nat) (t : Table N) (key : TValue N) : Except (Stop N) (Slot × Table N) :=
  setWith hash (newkeyAt granted hash depth []) t key

def luaHResizearray (depth : Nat) (t : Table N) (nasize : Nat) : Except (Stop N) (Table N) :=
  let nsize := if t.isDummy then 0 else t.sizenode
  resize granted [] hash (newkeyAt granted hash depth []) t nasize nsize

end Operations

/-! ## Without refusals -/

section Granted

theorem mapError_bind {α β : Type} {f : Stop N → Failure} (x : Except (Stop N) α)
    (g : α → Except (Stop N) β) :
    (x >>= g).mapError f = x.mapError f >>= fun a => (g a).mapError f := by
  cases x <;> rfl

theorem mapError_lift {α : Type} (x : Except Failure α) :
    (lift x : Except (Stop N) α).mapError Stop.forget = x := by
  cases x <;> rfl

variable [LuaNumber N] {hash : TValue N → Nat} {newkey : Newkey N} {newkey' : Ltable.Newkey N}

omit [LuaNumber N] in
theorem setnodevector_granted {granted : Allocator N} {path : List (TValue N)}
    (hall : granted path .nodes = true) (size : Nat) (t : Table N) :
    (setnodevector granted path size t).mapError Stop.forget = Ltable.setnodevector size t := by
  unfold setnodevector Ltable.setnodevector
  dsimp only
  split_ifs <;> rfl

variable (hnew : ∀ t key, (newkey t key).mapError Stop.forget = newkey' t key)

include hnew

theorem setWith_granted (t : Table N) (key : TValue N) :
    (setWith hash newkey t key).mapError Stop.forget = Ltable.setWith hash newkey' t key := by
  unfold setWith Ltable.setWith
  cases luaHGet hash t key with
  | some p => rfl
  | none =>
    cases key with
    | nil => rfl
    | number n =>
      dsimp only
      split_ifs
      · rfl
      · exact hnew t _
    | _ => exact hnew t _

theorem setnumWith_granted (t : Table N) (key : BitVec 32) :
    (setnumWith hash newkey t key).mapError Stop.forget = Ltable.setnumWith hash newkey' t key := by
  unfold setnumWith Ltable.setnumWith
  cases luaHGetnum hash t key with
  | some p => rfl
  | none => exact hnew t _

theorem reinsertArray_granted (is : List Nat) (t : Table N) :
    (reinsertArray hash newkey is t).mapError Stop.forget = Ltable.reinsertArray hash newkey' is t := by
  induction is generalizing t with
  | nil => rfl
  | cons i is ih =>
    rw [reinsertArray, Ltable.reinsertArray, mapError_bind, mapError_lift]
    refine bind_congr fun v => ?_
    split_ifs
    · exact ih t
    · rw [mapError_bind, setnumWith_granted hnew]
      refine bind_congr fun r => ?_
      rw [mapError_bind, mapError_lift]
      refine bind_congr fun v => ?_
      rw [mapError_bind, mapError_lift]
      exact bind_congr fun t => ih t

theorem reinsertNodes_granted (nold : Nat → Node N) (is : List Nat) (t : Table N) :
    (reinsertNodes hash newkey nold is t).mapError Stop.forget =
      Ltable.reinsertNodes hash newkey' nold is t := by
  induction is generalizing t with
  | nil => rfl
  | cons i is ih =>
    rw [reinsertNodes, Ltable.reinsertNodes]
    split_ifs
    · exact ih t
    · rw [mapError_bind, setWith_granted hnew]
      refine bind_congr fun r => ?_
      rw [mapError_bind, mapError_lift]
      exact bind_congr fun t => ih t

theorem shrinkArray_granted (nasize oldasize : Nat) (t : Table N) :
    (shrinkArray hash newkey nasize oldasize t).mapError Stop.forget =
      Ltable.shrinkArray hash newkey' nasize oldasize t := by
  unfold shrinkArray Ltable.shrinkArray
  split_ifs
  · rw [mapError_bind, reinsertArray_granted hnew]
    rfl
  · rfl

theorem resize_granted {granted : Allocator N} {path : List (TValue N)}
    (hall : ∀ site, granted path site = true) (t : Table N) (nasize nhsize : Nat) :
    (resize granted path hash newkey t nasize nhsize).mapError Stop.forget =
      Ltable.resize hash newkey' t nasize nhsize := by
  have hgrow : growArray granted path nasize t.sizearray t =
      .ok (if nasize > t.sizearray then Ltable.setarrayvector nasize t else t) := by
    unfold growArray setarrayvector
    rw [if_pos (hall .array)]
    split_ifs <;> rfl
  unfold resize Ltable.resize
  dsimp only
  rw [hgrow]
  change (setnodevector granted path nhsize _ >>= _).mapError Stop.forget = _
  rw [mapError_bind, setnodevector_granted (hall .nodes)]
  refine bind_congr fun t1 => ?_
  rw [mapError_bind, shrinkArray_granted hnew]
  exact bind_congr fun t1 => reinsertNodes_granted hnew _ _ t1

theorem newkeyStep_granted {granted : Allocator N} {path : List (TValue N)}
    (hall : ∀ site, granted path site = true) (t : Table N) (key : TValue N) :
    (newkeyStep granted path hash newkey t key).mapError Stop.forget =
      Ltable.newkeyStep hash newkey' t key := by
  unfold newkeyStep Ltable.newkeyStep
  dsimp only
  split_ifs
  · cases getfreepos t t.lastfree with
    | mk n lastfree =>
      cases n with
      | none =>
        dsimp only
        rw [mapError_bind, rehash, resize_granted hnew hall]
        exact bind_congr fun t1 => setWith_granted hnew t1 key
      | some n =>
        dsimp only
        split_ifs <;> rfl
  · rfl

omit hnew in
theorem newkeyAt_granted {granted : Allocator N} (hall : ∀ path site, granted path site = true)
    (depth : Nat) (path : List (TValue N)) (t : Table N) (key : TValue N) :
    (newkeyAt granted hash depth path t key).mapError Stop.forget =
      Ltable.newkey hash depth t key := by
  induction depth generalizing path t key with
  | zero => rfl
  | succ depth ih => exact newkeyStep_granted (fun t key => ih _ t key) (hall _) t key

omit hnew in
/-- An allocator that refuses nothing leaves `luaH_set` as it is. -/
theorem luaHSet_granted {granted : Allocator N} (hall : ∀ path site, granted path site = true)
    (depth : Nat) (t : Table N) (key : TValue N) :
    (luaHSet granted hash depth t key).mapError Stop.forget = Ltable.luaHSet hash depth t key :=
  setWith_granted (fun t key => newkeyAt_granted hall depth [] t key) t key

end Granted

end UgmeeLua.Ltable.Refusal

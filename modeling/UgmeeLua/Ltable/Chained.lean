import UgmeeLua.Ltable.Reached

namespace UgmeeLua.Ltable

open Scatter Ltable.Table LawfulNumber

variable {N : Type}

/-- A table of which only the hash part is left. -/
def Table.nodePart (t : Table N) : Table N :=
  { t with array := fun _ => .nil, allocated := 0, sizearray := 0 }

variable [LuaNumber N]

/-- The invariant of the hash part, whatever the array is. -/
def Chained (hash : TValue N → Nat) (t : Table N) : Prop := Sound hash t.nodePart

/-- Where a value can be written: in the array, or beside a key. -/
def Writable (t : Table N) : Slot → Prop
  | .array _ => True
  | .node i => (t.keyAt i).isSome

section Parts

variable {hash : TValue N → Nat} {t t' : Table N} {key : TValue N} {s : Slot}

theorem Chained.of_nodePart (h : Chained hash t) (heq : t'.nodePart = t.nodePart) : Chained hash t' := by
  unfold Chained
  rw [heq]
  exact h

theorem Chained.write {v : TValue N} (h : Chained hash t) (hs : Writable t s) (hwrite : t.write v s = .ok t') :
    Chained hash t' := by
  cases s with
  | array i =>
    rw [Table.write] at hwrite
    split_ifs at hwrite
    cases hwrite
    exact h
  | node i =>
    obtain ⟨k, hk⟩ := Option.isSome_iff_exists.mp hs
    cases hwrite
    exact Sound.write_node h hk v

theorem Chained.emptied (h : Emptied t t') : Chained hash t' := by
  have hpart : Emptied t'.nodePart t'.nodePart := ⟨rfl, rfl, rfl, h.node, h.dummy, h.lastfree⟩
  exact (hpart.inv (Nat.le_refl 0) (Nat.two_pow_pos 31)).sound

theorem luaHNew_chained {narray nhash : Nat} (h : luaHNew narray nhash = .ok t) : Chained hash t := by
  have hyields := setnodevector_yields
    (setarrayvector narray (⟨fun _ => .nil, 0, 0, fun _ => emptyNode, true, 0, 0⟩ : Table N)) nhash
  change Yields _ (luaHNew narray nhash) at hyields
  rw [h] at hyields
  cases hyields with
  | ok hemp => exact .emptied hemp.1

/-- A place that a search has come to can be written to. -/
theorem writable_of_get (hget : luaHGet hash t key = some s) : Writable t s := by
  have hchain : ∀ (found : TValue N → Bool) (start : Nat), found .nil = false →
      chainFind t found start = some s → Writable t s := by
    intro found start hnil hfind
    obtain ⟨i, hi, rfl⟩ := Option.map_eq_some_iff.mp hfind
    have hfound : ∀ fuel start, find (fun i => (t.node i).next) (fun i => found (t.node i).key) fuel start =
        some i → found (t.node i).key = true := by
      intro fuel
      induction fuel with
      | zero => exact fun _ h => by simp [find] at h
      | succ fuel ih =>
        intro start h
        rw [find] at h
        split_ifs at h with hp
        · cases h
          exact hp
        · split at h
          · exact ih _ h
          · cases h
    cases hk : t.keyAt i with
    | some k => exact Option.isSome_iff_exists.mpr ⟨k, hk⟩
    | none =>
      have hcontra := hfound _ _ hi
      rw [keyAt_eq_none.mp hk, hnil] at hcontra
      cases hcontra
  cases key with
  | nil => cases hget
  | number n =>
    simp only [luaHGet] at hget
    split_ifs at hget
    · rw [luaHGetnum] at hget
      split_ifs at hget
      · cases hget
        trivial
      · exact hchain _ _ rfl hget
    · exact hchain (fun k => luaORawequalObj k _) _ rfl hget
  | string str => exact hchain (isStr str) _ rfl hget
  | _ => exact hchain (fun k => luaORawequalObj k _) _ rfl hget

end Parts

namespace Refusal

variable {hash : TValue N → Nat} {newkey : Newkey N} {granted : Allocator N} {path : List (TValue N)}
  {t : Table N} {key : TValue N}

/-- The function that inserts keys keeps the invariant, also where it stops, and gives a place. -/
def Preserves (hash : TValue N → Nat) (newkey : Newkey N) : Prop :=
  ∀ t key, Chained hash t → Proper key →
    Leaves (fun r => Chained hash r.2 ∧ Writable r.2 r.1) (Chained hash) (newkey t key)

theorem Preserves.setWith (hnew : Preserves hash newkey) (h : Chained hash t) (key : TValue N) :
    Leaves (fun r => Chained hash r.2 ∧ Writable r.2 r.1) (Chained hash)
      (setWith hash newkey t key) := by
  unfold Refusal.setWith
  cases hget : luaHGet hash t key with
  | some s => exact .ok ⟨h, writable_of_get hget⟩
  | none =>
    cases key with
    | nil => exact .failure _
    | number n =>
      dsimp only
      split_ifs with hn
      · exact .failure _
      · have hself : luaiNumeq n n = true := by simpa [luaiNumisnan] using hn
        exact hnew t _ h ⟨by simp, hself⟩
    | _ => exact hnew t _ h ⟨by simp, by simp [luaORawequalObj]⟩

theorem Preserves.write {s : Slot} (h : Chained hash t) (hs : Writable t s) (v : TValue N) :
    Leaves (Chained hash) (Chained hash) (lift (t.write v s)) :=
  (leaves_lift _).mono fun _ hwrite => h.write hs hwrite

theorem Preserves.reinsertNodes (hnew : Preserves hash newkey) (h : Chained hash t) (nold : Nat → Node N)
    (is : List Nat) : Leaves (Chained hash) (Chained hash) (reinsertNodes hash newkey nold is t) := by
  induction is generalizing t with
  | nil => exact .ok h
  | cons i is ih =>
    rw [Refusal.reinsertNodes]
    split_ifs
    · exact ih h
    · exact (hnew.setWith h _).bind fun r hr => (Preserves.write hr.1 hr.2 _).bind fun t1 h1 => ih h1

variable [LawfulNumber N]

theorem Preserves.reinsertArray (hnew : Preserves hash newkey) (h : Chained hash t) (is : List Nat) :
    Leaves (Chained hash) (Chained hash) (reinsertArray hash newkey is t) := by
  induction is generalizing t with
  | nil => exact .ok h
  | cons i is ih =>
    rw [Refusal.reinsertArray]
    refine (leaves_lift _).bind fun v _ => ?_
    split_ifs
    · exact ih h
    · rw [setnumWith_eq]
      exact (hnew.setWith h _).bind fun r hr => (leaves_lift _).bind fun v _ =>
        (Preserves.write hr.1 hr.2 v).bind fun t1 h1 => ih h1

/-- `resize` keeps the invariant, and makes the node vector anew. -/
theorem Preserves.resize (hnew : Preserves hash newkey) (h : Chained hash t) (nasize nhsize : Nat) :
    Leaves (Chained hash) (Chained hash) (resize granted path hash newkey t nasize nhsize) := by
  unfold Refusal.resize
  have hgrow : Leaves (Chained hash) (Chained hash) (growArray granted path nasize t.sizearray t) := by
    unfold growArray setarrayvector
    split_ifs
    · exact .ok (h.of_nodePart rfl)
    · exact .raised h
    · exact .ok h
  refine hgrow.bind fun t1 h1 => ?_
  have hnodes : Leaves (Chained hash) (Chained hash) (setnodevector granted path nhsize t1) := by
    unfold setnodevector
    dsimp only
    split_ifs
    · exact .ok (.emptied (t := t1) ⟨rfl, rfl, rfl, fun _ => rfl, fun _ => ⟨rfl, rfl⟩, fun hd => (by cases hd)⟩)
    · exact .raised h1
    · exact .ok (.emptied (t := t1) ⟨rfl, rfl, rfl, fun _ => rfl, fun hd => (by cases hd), fun _ => rfl⟩)
    · exact .raised h1
  refine hnodes.bind fun t2 h2 => ?_
  have hshrink : Leaves (Chained hash) (Chained hash) (shrinkArray hash newkey nasize t.sizearray t2) := by
    unfold shrinkArray
    split_ifs
    · have hcut : Chained hash { t2 with sizearray := nasize } := h2.of_nodePart rfl
      exact (hnew.reinsertArray hcut _).bind fun t3 h3 => .ok (h3.of_nodePart rfl)
    · exact .ok h2
  exact hshrink.bind fun t3 h3 => hnew.reinsertNodes h3 _ _

omit [LuaNumber N] [LawfulNumber N] in
theorem getfreepos_nodePart (n : Nat) : getfreepos t.nodePart n = getfreepos t n := by
  induction n with
  | zero => rfl
  | succ n ih =>
    rw [getfreepos, getfreepos, ih]
    rfl

omit [LuaNumber N] [LawfulNumber N] in
theorem hasPlace_nodePart : HasPlace hash t.nodePart key ↔ HasPlace hash t key := by
  unfold HasPlace
  rw [getfreepos_nodePart]
  exact Iff.rfl

omit [LawfulNumber N] in
/-- Where a place is free, what `newkey` does to the hash part does not depend on the array. -/
theorem newkeyStep_nodePart (granted : Allocator N) (path : List (TValue N)) (hplace : HasPlace hash t key)
    (newkey : Newkey N) (newkey' : Ltable.Newkey N) :
    ∃ r, newkeyStep granted path hash newkey t key = .ok r ∧
      Ltable.newkeyStep hash newkey' t.nodePart key = .ok (r.1, r.2.nodePart) := by
  obtain ⟨hdummy, hplace⟩ := hplace
  unfold newkeyStep Ltable.newkeyStep
  dsimp only
  have hmain : mainposition hash t.nodePart key = mainposition hash t key := rfl
  have hnode : t.nodePart.node = t.node := rfl
  have hd : t.nodePart.isDummy = t.isDummy := rfl
  have hfree : getfreepos t.nodePart t.nodePart.lastfree = getfreepos t t.lastfree := getfreepos_nodePart _
  rw [hmain, hnode, hd, hfree]
  split_ifs with hbusy
  · rcases hplace with hnil | ⟨n, hn⟩
    · rw [hnil, hdummy] at hbusy
      cases hbusy
    · cases hpos : getfreepos t t.lastfree with
      | mk pos lastfree =>
        rw [hpos] at hn
        cases hn
        dsimp only
        by_cases hhome : mainposition hash { t with lastfree := lastfree } (t.node (mainposition hash t key)).key ≠
            mainposition hash t key
        · exact ⟨_, if_pos hhome, if_pos hhome⟩
        · exact ⟨_, if_neg hhome, if_neg hhome⟩
  · exact ⟨_, rfl, rfl⟩

theorem Preserves.newkeyStep (hnew : Preserves hash newkey) : Preserves hash (newkeyStep granted path hash newkey) := by
  intro t key h hkey
  by_cases hplace : HasPlace hash t key
  · obtain ⟨r, hr, hpart⟩ := newkeyStep_nodePart granted path hplace newkey (Ltable.newkey hash 0)
    obtain ⟨i, t', origin, hstep, hfit⟩ := Sound.newkey_fitted h hkey (Nat.zero_le _)
      (hasPlace_nodePart.mpr hplace) (Ltable.newkey hash 0)
    rw [hpart] at hstep
    obtain ⟨hslot, rfl⟩ := Prod.mk.inj (Except.ok.inj hstep)
    rw [hr]
    refine .ok ⟨hfit.sound, ?_⟩
    rw [hslot]
    exact Option.isSome_iff_exists.mpr ⟨key, hfit.refilled.keyAt_self hkey.1⟩
  · have hbusy := (Aged.full_iff h key).mpr (mt hasPlace_nodePart.mp hplace)
    rw [getfreepos_nodePart, Bool.and_eq_true, Option.isNone_iff_eq_none] at hbusy
    obtain ⟨hbusy, hnone⟩ := hbusy
    have hfree : getfreepos t t.lastfree = (none, 0) := by
      rcases getfreepos_spec t t.lastfree with ⟨n, -, hsome, -⟩ | ⟨hfree, -⟩
      · rw [show getfreepos t t.nodePart.lastfree = _ from hsome] at hnone
        cases hnone
      · exact hfree
    have hlast : Chained hash { t with lastfree := 0 } :=
      Sound.noFreepos h (by rw [getfreepos_nodePart]; exact hnone)
    unfold Refusal.newkeyStep
    simp only [show (!(t.node (mainposition hash t key)).val.isNil || t.isDummy) = true from hbusy, if_true, hfree]
    exact (hnew.resize hlast _ _).bind fun t1 h1 => hnew.setWith h1 key

/-- `newkey` keeps the invariant, wherever the allocator stops it. -/
theorem preserves_newkeyAt (granted : Allocator N) (hash : TValue N → Nat) (depth : Nat)
    (path : List (TValue N)) : Preserves hash (newkeyAt granted hash depth path) := by
  induction depth generalizing path with
  | zero => exact fun _ _ _ _ => .failure _
  | succ depth ih => exact fun t key => (ih (key :: path)).newkeyStep t key

end Refusal

/-! ## The tables that a program can come to -/

namespace Aged

section Operations

variable (granted : Refusal.Allocator N) (hash : TValue N → Nat) (depth : Nat)

/-- `newkey`, with an allocator that may refuse. -/
def newkeyAt (a : Aged N) (key : TValue N) : Except (Refusal.Stop N) (Slot × Aged N) := do
  let mp := mainposition hash a.table key
  let full := (!(a.table.node mp).val.isNil || a.table.isDummy) &&
    (getfreepos a.table a.table.lastfree).1.isNone
  let (s, t) ← Refusal.newkeyAt granted hash depth [] a.table key
  .ok (s, ⟨t, fun i => if full || s = .node i then none else a.dead i⟩)

def luaHSetAt (a : Aged N) (key : TValue N) : Except (Refusal.Stop N) (Slot × Aged N) :=
  match luaHGet hash a.seen key with
  | some p => .ok (p, a)
  | none =>
    match key with
    | .nil => .error (.failure (.raised "table index is nil"))
    | .number n =>
      if luaiNumisnan n then .error (.failure (.raised "table index is NaN"))
      else a.newkeyAt granted hash depth key
    | _ => a.newkeyAt granted hash depth key

def luaHSetnumAt (a : Aged N) (key : BitVec 32) : Except (Refusal.Stop N) (Slot × Aged N) :=
  match luaHGetnum hash a.seen key with
  | some p => .ok (p, a)
  | none => a.newkeyAt granted hash depth (.number (castNum key))

def luaHSetstrAt (a : Aged N) (key : Bytes) : Except (Refusal.Stop N) (Slot × Aged N) :=
  match luaHGetstr hash a.seen key with
  | some p => .ok (p, a)
  | none => a.newkeyAt granted hash depth (.string key)

end Operations

/-- What is left of a table where an insertion, or a change of its size, stops at an error: the dead keys
are still there when the node vector is. -/
def stopped (a : Aged N) (path : List (TValue N)) (r : Refusal.Request N) (t : Table N) : Aged N :=
  ⟨t, fun i => if r.path.length = path.length then a.dead i else none⟩

/-- The tables that stores, changes of the size, errors in them and the collector come to. -/
inductive Reachable (hash : TValue N → Nat) (depth : Nat) : Aged N → Prop
  | new {narray nhash : Nat} {t : Table N} (h : luaHNew narray nhash = .ok t) :
      Reachable hash depth ⟨t, fun _ => none⟩
  | set {a a1 : Aged N} {t : Table N} {s : Slot} {key v : TValue N} {granted : Refusal.Allocator N}
      (h : Reachable hash depth a) (hset : a.luaHSetAt granted hash depth key = .ok (s, a1))
      (hwrite : a1.table.write v s = .ok t) : Reachable hash depth ⟨t, a1.dead⟩
  | setnum {a a1 : Aged N} {t : Table N} {s : Slot} {key : BitVec 32} {v : TValue N}
      {granted : Refusal.Allocator N} (h : Reachable hash depth a)
      (hset : a.luaHSetnumAt granted hash depth key = .ok (s, a1)) (hwrite : a1.table.write v s = .ok t) :
      Reachable hash depth ⟨t, a1.dead⟩
  | setstr {a a1 : Aged N} {t : Table N} {s : Slot} {key : Bytes} {v : TValue N}
      {granted : Refusal.Allocator N} (h : Reachable hash depth a)
      (hset : a.luaHSetstrAt granted hash depth key = .ok (s, a1)) (hwrite : a1.table.write v s = .ok t) :
      Reachable hash depth ⟨t, a1.dead⟩
  | setRaised {a : Aged N} {t : Table N} {key : TValue N} {granted : Refusal.Allocator N}
      {r : Refusal.Request N} (h : Reachable hash depth a)
      (hset : a.luaHSetAt granted hash depth key = .error (.raised r t)) :
      Reachable hash depth (a.stopped [key] r t)
  | setnumRaised {a : Aged N} {t : Table N} {key : BitVec 32} {granted : Refusal.Allocator N}
      {r : Refusal.Request N} (h : Reachable hash depth a)
      (hset : a.luaHSetnumAt granted hash depth key = .error (.raised r t)) :
      Reachable hash depth (a.stopped [.number (castNum key)] r t)
  | setstrRaised {a : Aged N} {t : Table N} {key : Bytes} {granted : Refusal.Allocator N}
      {r : Refusal.Request N} (h : Reachable hash depth a)
      (hset : a.luaHSetstrAt granted hash depth key = .error (.raised r t)) :
      Reachable hash depth (a.stopped [.string key] r t)
  | resizearray {a : Aged N} {t : Table N} {nasize : Nat} {granted : Refusal.Allocator N}
      (h : Reachable hash depth a)
      (hresize : Refusal.luaHResizearray granted hash depth a.table nasize = .ok t) :
      Reachable hash depth ⟨t, fun _ => none⟩
  | resizearrayRaised {a : Aged N} {t : Table N} {nasize : Nat} {granted : Refusal.Allocator N}
      {r : Refusal.Request N} (h : Reachable hash depth a)
      (hresize : Refusal.luaHResizearray granted hash depth a.table nasize = .error (.raised r t)) :
      Reachable hash depth (a.stopped [] r t)
  | collect {a : Aged N} {gcvalue : Gcvalue N} {is : List Nat} (h : Reachable hash depth a)
      (his : ∀ i ∈ is, (a.table.node i).val = .nil) :
      Reachable hash depth (is.foldl (Aged.removeentry gcvalue) a)

section Runs

variable [LawfulNumber N] {granted : Refusal.Allocator N} {hash : TValue N → Nat} {depth : Nat}
  {a a1 : Aged N} {t : Table N} {s : Slot} {key v : TValue N} {r : Refusal.Request N}

/-- What an insertion into a table with dead keys comes to. -/
inductive Outcome (hash : TValue N → Nat) : Except (Refusal.Stop N) (Slot × Aged N) → Prop
  | ok {s : Slot} {a1 : Aged N} (h : Chained hash a1.table) (hs : Writable a1.table s) :
      Outcome hash (.ok (s, a1))
  | raised {r : Refusal.Request N} {t : Table N} (h : Chained hash t) : Outcome hash (.error (.raised r t))
  | failure (f : Failure) : Outcome hash (.error (.failure f))

theorem outcome_newkeyAt (h : Chained hash a.table) (hkey : Proper key) :
    Outcome hash (a.newkeyAt granted hash depth key) := by
  have hnew := Refusal.preserves_newkeyAt granted hash depth [] a.table key h hkey
  unfold newkeyAt
  dsimp only
  cases hrun : Refusal.newkeyAt granted hash depth [] a.table key with
  | ok p =>
    rw [hrun] at hnew
    cases hnew with
    | ok hp => exact .ok hp.1 hp.2
  | error e =>
    rw [hrun] at hnew
    cases hnew with
    | raised ht => exact .raised ht
    | failure f => exact .failure f

theorem outcome_luaHSetAt (granted : Refusal.Allocator N) (depth : Nat) (h : Chained hash a.table)
    (key : TValue N) :
    Outcome hash (a.luaHSetAt granted hash depth key) := by
  unfold luaHSetAt
  cases hget : luaHGet hash a.seen key with
  | some s =>
    refine .ok h ?_
    have hs := writable_of_get hget
    cases s with
    | array i => trivial
    | node i =>
      obtain ⟨k, hk⟩ := Option.isSome_iff_exists.mp hs
      exact Option.isSome_iff_exists.mpr ⟨k, (seen_keyAt.mp hk).1⟩
  | none =>
    cases key with
    | nil => exact .failure _
    | number n =>
      dsimp only
      split_ifs with hn
      · exact .failure _
      · have hself : luaiNumeq n n = true := by simpa [luaiNumisnan] using hn
        exact outcome_newkeyAt h ⟨by simp, hself⟩
    | _ => exact outcome_newkeyAt h ⟨by simp, by simp [luaORawequalObj]⟩

theorem luaHSetnumAt_eq (a : Aged N) (key : BitVec 32) :
    a.luaHSetnumAt granted hash depth key = a.luaHSetAt granted hash depth (.number (castNum key)) := by
  have hn : luaiNumisnan (castNum key : N) = false := by
    have hself : luaiNumeq (castNum key : N) (castNum key) = true := castNum_eq key
    simp only [luaiNumisnan, hself, Bool.not_true]
  simp only [luaHSetnumAt, luaHSetAt, luaHGetnum_eq, hn, Bool.false_eq_true, if_false]

omit [LawfulNumber N] in
theorem luaHSetstrAt_eq (a : Aged N) (key : Bytes) :
    a.luaHSetstrAt granted hash depth key = a.luaHSetAt granted hash depth (.string key) := rfl

theorem chained_set (h : Chained hash a.table) (hset : a.luaHSetAt granted hash depth key = .ok (s, a1))
    (hwrite : a1.table.write v s = .ok t) : Chained hash t := by
  have hout := outcome_luaHSetAt granted depth h key
  rw [hset] at hout
  cases hout with
  | ok h1 hs => exact h1.write hs hwrite

theorem chained_setRaised (h : Chained hash a.table)
    (hset : a.luaHSetAt granted hash depth key = .error (.raised r t)) : Chained hash t := by
  have hout := outcome_luaHSetAt granted depth h key
  rw [hset] at hout
  cases hout with
  | raised ht => exact ht

theorem chained_luaHResizearray (granted : Refusal.Allocator N) (depth : Nat) (h : Chained hash a.table)
    (nasize : Nat) :
    Refusal.Leaves (Chained hash) (Chained hash)
      (Refusal.luaHResizearray granted hash depth a.table nasize) :=
  (Refusal.preserves_newkeyAt granted hash depth []).resize h _ _

omit [LuaNumber N] [LawfulNumber N] in
theorem removeentries_table (gcvalue : Gcvalue N) (is : List Nat) (a : Aged N) :
    (is.foldl (Aged.removeentry gcvalue) a).table = a.table := by
  induction is generalizing a with
  | nil => rfl
  | cons i is ih => rw [List.foldl_cons, ih, removeentry_table]

theorem Reachable.chained (h : Reachable hash depth a) : Chained hash a.table := by
  induction h with
  | new h => exact luaHNew_chained h
  | set _ hset hwrite ih => exact chained_set ih hset hwrite
  | setnum _ hset hwrite ih =>
    rw [luaHSetnumAt_eq] at hset
    exact chained_set ih hset hwrite
  | setstr _ hset hwrite ih =>
    rw [luaHSetstrAt_eq] at hset
    exact chained_set ih hset hwrite
  | setRaised _ hset ih => exact chained_setRaised ih hset
  | setnumRaised _ hset ih =>
    rw [luaHSetnumAt_eq] at hset
    exact chained_setRaised ih hset
  | setstrRaised _ hset ih =>
    rw [luaHSetstrAt_eq] at hset
    exact chained_setRaised ih hset
  | @resizearray _ _ nasize granted _ hresize ih =>
    have hleaves := chained_luaHResizearray granted depth ih nasize
    rw [hresize] at hleaves
    cases hleaves with
    | ok ht => exact ht
  | @resizearrayRaised _ _ nasize granted _ _ hresize ih =>
    have hleaves := chained_luaHResizearray granted depth ih nasize
    rw [hresize] at hleaves
    cases hleaves with
    | raised ht => exact ht
  | collect _ _ ih =>
    rw [removeentries_table]
    exact ih

/-- The scatter table. A key with a value is in the chain that begins at its main position, every chain has
an end and comes to no node twice, a node that is not in the main position of its key gave way to one that
is, and from `lastfree` on no node is free. -/
theorem Reachable.scatter (h : Reachable hash depth a) (hnode : a.table.isDummy = false) :
    (∀ i < a.table.sizenode, (a.table.node i).val ≠ .nil →
      ∃ l, Path a.table.nextAt (mainposition hash a.table (a.table.node i).key) l ∧ i ∈ l) ∧
    (∀ i < a.table.sizenode, ∃ l, Path a.table.nextAt i l ∧ l.Nodup) ∧
    (∀ i < a.table.sizenode, (a.table.node i).val ≠ .nil →
      mainposition hash a.table (a.table.node i).key ≠ i →
      ∃ k, (a.table.node (mainposition hash a.table (a.table.node i).key)).key = k ∧ k ≠ .nil ∧
        mainposition hash a.table k = mainposition hash a.table (a.table.node i).key) ∧
    ∀ i, a.table.lastfree ≤ i → i < a.table.sizenode → (a.table.node i).key ≠ .nil := by
  have hsound : Sound hash a.table.nodePart := h.chained
  have hsc : Scattered a.table.sizenode (mainposition hash a.table) a.table.keyAt a.table.nextAt :=
    hsound.scattered
  have hkey : ∀ i, (a.table.node i).val ≠ .nil → a.table.keyAt i = some (a.table.node i).key := by
    intro i hval
    exact hsound.keyAt_of_pair (pairAt_eq_some (p := ((a.table.node i).key, (a.table.node i).val)) |>.mpr
      ⟨rfl, rfl, hval⟩)
  refine ⟨fun i _ hval => hsc.reach (hkey i hval), fun i _ => ?_, fun i _ hval _ => ?_, fun i hi hlt => ?_⟩
  · have hchain : ∃ l, Path a.table.nextAt i l := by
      cases hk : a.table.keyAt i with
      | some k =>
        obtain ⟨l, hpath, hmem⟩ := hsc.reach hk
        obtain ⟨l', hl', -⟩ := hpath.suffix hmem
        exact ⟨l', hl'⟩
      | none =>
        cases hnext : a.table.nextAt i with
        | none => exact ⟨[i], .last hnext⟩
        | some j =>
          have hused := (hsc.linked hnext).1
          rw [hk] at hused
          cases hused
    obtain ⟨l, hl⟩ := hchain
    exact ⟨l, hl, hl.nodup⟩
  · obtain ⟨k, hk, hhome⟩ := hsc.home (hkey i hval)
    obtain ⟨hnodekey, hne⟩ := keyAt_eq_some.mp hk
    exact ⟨k, hnodekey, hne, hhome⟩
  · obtain ⟨k, hk⟩ := Option.isSome_iff_exists.mp (hsound.lastfree hnode i hi hlt)
    obtain ⟨rfl, hne⟩ := keyAt_eq_some.mp hk
    exact hne

end Runs

/-- Two keys with one main position. -/
theorem Reachable.scatter_collision : ∃ a : Aged Int,
    (a.table.sizenode = 2 ∧ a.table.lastfree = 1 ∧ a.table.nextAt 0 = some 1) ∧
    (∀ i < a.table.sizenode, (a.table.node i).val ≠ .nil →
      ∃ l, Path a.table.nextAt (mainposition (fun _ => 0) a.table (a.table.node i).key) l ∧ i ∈ l) ∧
    (∀ i < a.table.sizenode, ∃ l, Path a.table.nextAt i l ∧ l.Nodup) ∧
    (∀ i < a.table.sizenode, (a.table.node i).val ≠ .nil →
      mainposition (fun _ => 0) a.table (a.table.node i).key ≠ i →
      ∃ k, (a.table.node (mainposition (fun _ => 0) a.table (a.table.node i).key)).key = k ∧ k ≠ .nil ∧
        mainposition (fun _ => 0) a.table k = mainposition (fun _ => 0) a.table (a.table.node i).key) ∧
    ∀ i, a.table.lastfree ≤ i → i < a.table.sizenode → (a.table.node i).key ≠ .nil := by
  obtain ⟨t, a1, t1, a2, t2, hnew, hsetstr, hwrite1, hsetnum, hwrite2, hparts⟩ :
      ∃ (t : Table Int) (a1 : Aged Int) (t1 : Table Int) (a2 : Aged Int) (t2 : Table Int),
        luaHNew 0 2 = .ok t ∧
        Aged.luaHSetstrAt (fun _ _ => true) (fun _ => 0) 1 ⟨t, fun _ => none⟩ [120] = .ok (.node 0, a1) ∧
        a1.table.write (.boolean true) (.node 0) = .ok t1 ∧
        Aged.luaHSetnumAt (fun _ _ => true) (fun _ => 0) 1 ⟨t1, a1.dead⟩ 2 = .ok (.node 1, a2) ∧
        a2.table.write (.boolean true) (.node 1) = .ok t2 ∧
        t2.isDummy = false ∧ t2.sizenode = 2 ∧ t2.lastfree = 1 ∧ t2.nextAt 0 = some 1 :=
    ⟨_, _, _, _, _, rfl, rfl, rfl, rfl, rfl, rfl, rfl, rfl, rfl⟩
  have hreached : Reachable (fun _ => 0) 1 ⟨t2, a2.dead⟩ :=
    .setnum (.setstr (.new hnew) hsetstr hwrite1) hsetnum hwrite2
  exact ⟨⟨t2, a2.dead⟩, hparts.2, hreached.scatter hparts.1⟩

end Aged

end UgmeeLua.Ltable

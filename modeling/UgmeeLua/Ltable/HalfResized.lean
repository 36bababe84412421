import UgmeeLua.Ltable.Refusal

namespace UgmeeLua.Ltable.Refusal

open Scatter Ltable.Table LawfulNumber

variable {N : Type} [LuaNumber N]

/-- No node has the key, and its place among the first `b` of the array has no value. -/
structure Without (key : TValue N) (b : Nat) (t : Table N) : Prop where
  nodes : ∀ i, luaORawequalObj (t.node i).key key = false
  lacks : index key < t.sizearray → t.array (index key) = .nil
  array : index key < b → t.array (index key) = .nil
  sizearray : t.sizearray < 2 ^ 31

/-- What comes of an operation, however it stops: the table that there is by then. -/
inductive Leaves {α : Type} (P : α → Prop) (Q : Table N → Prop) : Except (Stop N) α → Prop
  | ok {a : α} (h : P a) : Leaves P Q (.ok a)
  | raised {r : Request N} {t : Table N} (h : Q t) : Leaves P Q (.error (.raised r t))
  | failure (f : Failure) : Leaves P Q (.error (.failure f))

section Leaves

variable {α β : Type} {P : α → Prop} {P' : β → Prop} {Q : Table N → Prop}

omit [LuaNumber N] in
theorem Leaves.bind {x : Except (Stop N) α} {f : α → Except (Stop N) β} (h : Leaves P Q x)
    (hf : ∀ a, P a → Leaves P' Q (f a)) : Leaves P' Q (x >>= f) := by
  cases h with
  | ok h => exact hf _ h
  | raised h => exact .raised h
  | failure f => exact .failure f

omit [LuaNumber N] in
theorem Leaves.mono {P'' : α → Prop} {x : Except (Stop N) α} (h : Leaves P Q x)
    (himp : ∀ a, P a → P'' a) : Leaves P'' Q x := by
  cases h with
  | ok h => exact .ok (himp _ h)
  | raised h => exact .raised h
  | failure f => exact .failure f

omit [LuaNumber N] in
theorem leaves_lift (x : Except Failure α) : Leaves (fun a => x = .ok a) Q (lift x) := by
  cases x with
  | ok a => exact .ok rfl
  | error f => exact .failure f

end Leaves

section Keys

variable {key : TValue N} {b : Nat} {t : Table N}

theorem Without.of_parts {t' : Table N} (h : Without key b t) (hnode : t'.node = t.node)
    (harray : t'.array = t.array) (hsize : t'.sizearray = t.sizearray) : Without key b t' := by
  refine ⟨?_, ?_, ?_, ?_⟩
  · rw [hnode]
    exact h.nodes
  · rw [harray, hsize]
    exact h.lacks
  · rw [harray]
    exact h.array
  · rw [hsize]
    exact h.sizearray

theorem Without.setNode (h : Without key b t) {i : Nat} {n : Node N}
    (hn : luaORawequalObj n.key key = false) : Without key b (t.setNode i n) := by
  refine ⟨fun j => ?_, h.lacks, h.array, h.sizearray⟩
  by_cases hj : j = i
  · simp only [Table.setNode, hj, if_true]
    exact hn
  · simp only [Table.setNode, hj, if_false]
    exact h.nodes j

theorem Without.putKey (h : Without key b t) {k : TValue N} (hk : luaORawequalObj k key = false)
    (i : Nat) : Without key b (putKey t i k).2 :=
  h.setNode hk

theorem Without.moveNode (h : Without key b t) (mp n othern : Nat) :
    Without key b (moveNode t mp n othern) := by
  have hother := h.setNode (i := Scatter.before (fun i => (t.node i).next) mp t.sizenode othern)
    (n := { t.node (Scatter.before (fun i => (t.node i).next) mp t.sizenode othern) with
      next := some n }) (h.nodes _)
  have hcopy := hother.setNode (i := n) (n := (t.setNode _ _).node mp) (hother.nodes mp)
  exact hcopy.setNode (hcopy.nodes mp)

theorem Without.chainNode (h : Without key b t) (mp n : Nat) : Without key b (chainNode t mp n) := by
  have hfirst := h.setNode (i := n) (n := { t.node n with next := (t.node mp).next }) (h.nodes n)
  exact hfirst.setNode (hfirst.nodes mp)

/-- A place that is none of the key's. -/
def Elsewhere (key : TValue N) (s : Slot) : Prop := s ≠ .array (index key)

theorem Without.write (h : Without key b t) {s : Slot} (hs : Elsewhere key s) {v : TValue N}
    {t' : Table N} (hwrite : t.write v s = .ok t') : Without key b t' := by
  cases s with
  | array i =>
    have hne : index key ≠ i := fun heq => hs (by rw [heq])
    simp only [Table.write] at hwrite
    split_ifs at hwrite
    cases hwrite
    refine ⟨h.nodes, fun hin => ?_, fun hin => ?_, h.sizearray⟩
    · exact (if_neg hne).trans (h.lacks hin)
    · exact (if_neg hne).trans (h.array hin)
  | node i =>
    cases hwrite
    exact h.setNode (h.nodes i)

variable [LawfulNumber N] {hash : TValue N → Nat}

/-- What is without a key finds no value for it. -/
theorem Without.lookup_ne (h : Without key b t) (hhash : Consistent hash) (hkey : key ≠ .nil)
    {v : TValue N} (hv : v ≠ .nil) : lookup hash t key ≠ .ok v := by
  intro hlookup
  by_cases hin : index key < t.sizearray
  · rw [lookup, luaHGet_array h.sizearray hin] at hlookup
    simp only [Table.found, Table.read, h.lacks hin] at hlookup
    split_ifs at hlookup
    cases hlookup
    exact hv rfl
  · rw [lookup, luaHGet_chain hhash hkey (Nat.le_of_not_lt hin), luaHGetany, chainFind,
      find_none h.nodes] at hlookup
    cases hlookup
    exact hv rfl

/-- A search for another key does not come to the place of the key. -/
theorem elsewhere_of_get (hhash : Consistent hash) (hsize : t.sizearray < 2 ^ 31) {k : TValue N}
    {s : Slot} (hget : luaHGet hash t k = some s) (hk : luaORawequalObj k key = false) :
    Elsewhere key s := by
  by_cases hin : index k < t.sizearray
  · rw [luaHGet_array hsize hin] at hget
    cases hget
    intro heq
    have hequal := rawequal_of_index (Nat.lt_trans hin hsize) (Slot.array.inj heq).symm
    rw [hk] at hequal
    cases hequal
  · by_cases hnil : k = .nil
    · rw [hnil] at hget
      cases hget
    · rw [luaHGet_chain hhash hnil (Nat.le_of_not_lt hin), luaHGetany, chainFind] at hget
      obtain ⟨i, -, hi⟩ := Option.map_eq_some_iff.mp hget
      rw [← hi]
      exact Slot.noConfusion

end Keys

/-- The function that inserts keys never gives the key a place, but where it is the one to insert. -/
def Spares (newkey : Newkey N) (key : TValue N) : Prop :=
  ∀ b t k, Without key b t → Leaves
    (fun r => luaORawequalObj k key = false → Without key b r.2 ∧ Elsewhere key r.1)
    (Without key b) (newkey t k)

section Resizing

variable [LawfulNumber N] {hash : TValue N → Nat} {key : TValue N} {newkey : Newkey N} {b : Nat}
  {t : Table N}

theorem Spares.setWith (hspares : Spares newkey key) (hhash : Consistent hash) :
    Spares (setWith hash newkey) key := by
  intro b t k h
  unfold Refusal.setWith
  cases hget : luaHGet hash t k with
  | some s => exact .ok fun hk => ⟨h, elsewhere_of_get hhash h.sizearray hget hk⟩
  | none =>
    cases k with
    | nil => exact .failure _
    | number n =>
      dsimp only
      split_ifs
      · exact .failure _
      · exact hspares b t _ h
    | _ => exact hspares b t _ h

theorem setnumWith_eq (newkey : Newkey N) (t : Table N) (k : BitVec 32) :
    setnumWith hash newkey t k = Refusal.setWith hash newkey t (.number (castNum k)) := by
  have hn : luaiNumisnan (castNum k : N) = false := by
    simp only [luaiNumisnan, castNum_eq, Bool.not_true]
  simp only [setnumWith, Refusal.setWith, luaHGetnum_eq, hn, Bool.false_eq_true, if_false]

theorem Without.reinsertArray (hspares : Spares newkey key) (hhash : Consistent hash)
    (h : Without key b t) (is : List Nat)
    (his : ∀ i ∈ is, i < 2 ^ 31 ∧ (i = index key → i < b)) :
    Leaves (Without key b) (Without key b) (reinsertArray hash newkey is t) := by
  induction is generalizing t with
  | nil => exact .ok h
  | cons i is ih =>
    obtain ⟨hsize, hplace⟩ := his i List.mem_cons_self
    have hrest := fun j hj => his j (List.mem_cons_of_mem i hj)
    rw [Refusal.reinsertArray]
    refine (leaves_lift _).bind fun v hv => ?_
    split_ifs with hnil
    · exact ih h hrest
    · have hk : luaORawequalObj (.number (castNum (BitVec.ofNat 32 (i + 1)))) key = false := by
        by_contra hk
        rw [Bool.not_eq_false] at hk
        have hidx : i = index key := by
          rw [← index_castNum (N := N) hsize, index, index, arrayindex_congr hk]
        have hval := h.array (hidx ▸ hplace hidx)
        simp only [Table.read] at hv
        split_ifs at hv
        cases hv
        rw [hidx, hval] at hnil
        exact hnil rfl
      rw [setnumWith_eq]
      refine (hspares.setWith hhash b t _ h).bind fun r hr => ?_
      obtain ⟨hr, helse⟩ := hr hk
      refine (leaves_lift _).bind fun v' _ => (leaves_lift _).bind fun t' ht' => ?_
      exact ih (hr.write helse ht') hrest

theorem Without.reinsertNodes (hspares : Spares newkey key) (hhash : Consistent hash)
    (h : Without key b t) {nold : Nat → Node N} (is : List Nat)
    (his : ∀ i ∈ is, (nold i).val.isNil = false → luaORawequalObj (nold i).key key = false) :
    Leaves (Without key b) (Without key b) (reinsertNodes hash newkey nold is t) := by
  induction is generalizing t with
  | nil => exact .ok h
  | cons i is ih =>
    have hrest := fun j hj => his j (List.mem_cons_of_mem i hj)
    rw [Refusal.reinsertNodes]
    split_ifs with hnil
    · exact ih h hrest
    · have hk := his i List.mem_cons_self (Bool.not_eq_true _ ▸ hnil)
      refine (hspares.setWith hhash b t _ h).bind fun r hr => ?_
      obtain ⟨hr, helse⟩ := hr hk
      exact (leaves_lift _).bind fun t' ht' => ih (hr.write helse ht') hrest

theorem Without.shrinkArray (hspares : Spares newkey key) (hhash : Consistent hash)
    (h : Without key b t) {nasize oldasize : Nat} (hsize : t.sizearray = max nasize oldasize)
    (hold : ∀ i, nasize ≤ i → i < oldasize → i = index key → i < b) :
    Leaves (Without key b) (Without key b) (shrinkArray hash newkey nasize oldasize t) := by
  have hbound := h.sizearray
  unfold Refusal.shrinkArray
  split_ifs with hlt
  · have hcut : Without key b { t with sizearray := nasize } := by
      refine ⟨h.nodes, fun hin => ?_, h.array, ?_⟩
      · have hin : index key < nasize := hin
        exact h.lacks (by omega)
      · change nasize < 2 ^ 31
        omega
    refine (hcut.reinsertArray hspares hhash _ fun i hi => ?_).bind fun t' h' => .ok ?_
    · obtain ⟨hle, hlt'⟩ := List.mem_range'_1.mp hi
      exact ⟨by omega, hold i hle (by omega)⟩
    · exact h'.of_parts rfl rfl rfl
  · exact .ok h

variable {granted : Allocator N} {path : List (TValue N)}

omit [LawfulNumber N] in
theorem Without.growArray (h : Without key b t) {nasize : Nat} (hnasize : nasize < 2 ^ 31) :
    Leaves (fun t' => Without key b t' ∧ t'.sizearray = max nasize t.sizearray) (Without key b)
      (growArray granted path nasize t.sizearray t) := by
  unfold Refusal.growArray Refusal.setarrayvector
  split_ifs with hgrow hgranted
  · refine .ok ⟨⟨h.nodes, fun hin => ?_, fun hin => ?_, hnasize⟩, ?_⟩
    · have hin : index key < nasize := hin
      by_cases hold : t.sizearray ≤ index key
      · exact if_pos ⟨hold, hin⟩
      · exact (if_neg fun hc => hold hc.1).trans (h.lacks (Nat.lt_of_not_le hold))
    · by_cases hnew : t.sizearray ≤ index key ∧ index key < nasize
      · exact if_pos hnew
      · exact (if_neg hnew).trans (h.array hin)
    · change nasize = max nasize t.sizearray
      omega
  · exact .raised h
  · exact .ok ⟨h, by omega⟩

omit [LawfulNumber N] in
theorem Without.setnodevector (h : Without key b t) (hkey : key ≠ .nil) (size : Nat) :
    Leaves (fun t' => Without key b t' ∧ t'.sizearray = t.sizearray) (Without key b)
      (setnodevector granted path size t) := by
  have hempty : luaORawequalObj (emptyNode : Node N).key key = false := by
    cases key with
    | nil => exact absurd rfl hkey
    | _ => rfl
  unfold Refusal.setnodevector
  dsimp only
  split_ifs
  · exact .ok ⟨⟨fun _ => hempty, h.lacks, h.array, h.sizearray⟩, rfl⟩
  · exact .raised h
  · exact .ok ⟨⟨fun _ => hempty, h.lacks, h.array, h.sizearray⟩, rfl⟩
  · exact .raised h

theorem Without.resize (hspares : Spares newkey key) (hhash : Consistent hash) (hkey : key ≠ .nil)
    (h : Without key b t) {nasize : Nat} (hnasize : nasize < 2 ^ 31) (nhsize : Nat) :
    Leaves (Without key b) (Without key b) (resize granted path hash newkey t nasize nhsize) := by
  -- all of the array is without the key, and remains so
  have hall : Without key (max b t.sizearray) t := by
    refine ⟨h.nodes, h.lacks, fun hin => ?_, h.sizearray⟩
    by_cases hb : index key < b
    · exact h.array hb
    · exact h.lacks (by omega)
  have hless : ∀ t' : Table N, Without key (max b t.sizearray) t' → Without key b t' := fun t' h' =>
    ⟨h'.nodes, h'.lacks, fun hin => h'.array (by omega), h'.sizearray⟩
  have hresize : Leaves (Without key (max b t.sizearray)) (Without key (max b t.sizearray))
      (Refusal.resize granted path hash newkey t nasize nhsize) := by
    unfold Refusal.resize
    refine (hall.growArray hnasize).bind fun t1 h1 => ?_
    obtain ⟨h1, hsize1⟩ := h1
    refine (h1.setnodevector hkey nhsize).bind fun t2 h2 => ?_
    obtain ⟨h2, hsize2⟩ := h2
    refine (h2.shrinkArray hspares hhash (hsize2.trans hsize1) fun i _ hi _ => ?_).bind
      fun t3 h3 => ?_
    · omega
    · exact h3.reinsertNodes hspares hhash _ fun i _ _ => h.nodes i
  generalize Refusal.resize granted path hash newkey t nasize nhsize = r at hresize ⊢
  cases hresize with
  | ok h' => exact .ok (hless _ h')
  | raised h' => exact .raised (hless _ h')
  | failure f => exact .failure f

theorem Without.rehash (hspares : Spares newkey key) (hhash : Consistent hash) (hkey : key ≠ .nil)
    (h : Without key b t) (ek : TValue N) :
    Leaves (Without key b) (Without key b) (rehash granted path hash newkey t ek) :=
  h.resize hspares hhash hkey (Nat.lt_of_le_of_lt (rehashSizes_spec t ek).1 (by decide)) _

theorem Spares.newkeyStep (hspares : Spares newkey key) (hhash : Consistent hash) (hkey : key ≠ .nil) :
    Spares (newkeyStep granted path hash newkey) key := by
  intro b t k h
  unfold Refusal.newkeyStep
  dsimp only
  split_ifs
  · cases getfreepos t t.lastfree with
    | mk n lastfree =>
      have h' : Without key b { t with lastfree := lastfree } := h.of_parts rfl rfl rfl
      cases n with
      | none =>
        exact (h'.rehash hspares hhash hkey k).bind fun t1 h1 => hspares.setWith hhash b t1 k h1
      | some n =>
        dsimp only
        split_ifs
        · exact .ok fun hk => ⟨(h'.moveNode _ _ _).putKey hk _, Slot.noConfusion⟩
        · exact .ok fun hk => ⟨(h'.chainNode _ _).putKey hk _, Slot.noConfusion⟩
  · exact .ok fun hk => ⟨h.putKey hk _, Slot.noConfusion⟩

theorem newkeyAt_spares (hhash : Consistent hash) (hkey : key ≠ .nil) (depth : Nat)
    (path : List (TValue N)) : Spares (newkeyAt granted hash depth path) key := by
  induction depth generalizing path with
  | zero => exact fun _ _ _ _ => .failure _
  | succ depth ih => exact fun b t k h => (ih (k :: path)).newkeyStep hhash hkey b t k h

end Resizing

end UgmeeLua.Ltable.Refusal

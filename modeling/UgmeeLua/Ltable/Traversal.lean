import UgmeeLua.Lib.Cursor
import UgmeeLua.Ltable.Reached

namespace UgmeeLua.Ltable

open Scatter Cursor Ltable.Table LawfulNumber

variable {N : Type} [LuaNumber N]

/-! ## Positions -/

/-- What a table has at the positions that `findindex` counts: those of the array, and after them the
nodes. -/
def entryAt (t : Table N) (p : Nat) : Option (TValue N × TValue N) :=
  if p < t.sizearray then arrayPair t.array p else t.pairAt (p - t.sizearray)

/-- The key of a position. -/
def keyOf (t : Table N) (p : Nat) : TValue N :=
  if p < t.sizearray then .number (castNum (BitVec.ofNat 32 (p + 1))) else (t.node (p - t.sizearray)).key

section Entries

variable {hash : TValue N → Nat} {t t' : Table N} {p q i n : Nat} {e e' : TValue N × TValue N}

theorem entryAt_array (h : i < t.sizearray) : entryAt t i = arrayPair t.array i := if_pos h

theorem entryAt_node (t : Table N) (i : Nat) : entryAt t (t.sizearray + i) = t.pairAt i := by
  have hnot : ¬ t.sizearray + i < t.sizearray := by omega
  rw [entryAt, if_neg hnot, Nat.add_sub_cancel_left]

omit [LuaNumber N] in
theorem position (t : Table N) (p : Nat) : p < t.sizearray ∨ ∃ i, p = t.sizearray + i := by
  by_cases h : p < t.sizearray
  · exact .inl h
  · exact .inr ⟨p - t.sizearray, by omega⟩

theorem entryAt_key (h : entryAt t p = some e) : keyOf t p = e.1 := by
  rcases position t p with hp | ⟨i, rfl⟩
  · rw [entryAt_array hp] at h
    rw [keyOf, if_pos hp]
    exact (arrayPair_eq_some.mp h).1.symm
  · rw [entryAt_node] at h
    have hnot : ¬ t.sizearray + i < t.sizearray := by omega
    rw [keyOf, if_neg hnot, Nat.add_sub_cancel_left]
    exact (pairAt_eq_some.mp h).1

theorem entryAt_lt (h : Sound hash t) (hp : (entryAt t p).isSome) : p < t.sizearray + t.sizenode := by
  obtain ⟨e, he⟩ := Option.isSome_iff_exists.mp hp
  rcases position t p with hp | ⟨i, rfl⟩
  · omega
  · rw [entryAt_node] at he
    have hlt := h.scattered.lt (h.keyAt_of_pair he)
    omega

/-- A value that takes the place of another fills no position. -/
theorem write_entries {s : Slot} {v w : TValue N} (hread : t.read s = .ok w) (hw : w ≠ .nil)
    (hwrite : t.write v s = .ok t') (hp : (entryAt t' p).isSome) : (entryAt t p).isSome := by
  have hsize := (Aged.write_rewritten hwrite).sizearray
  cases s with
  | array i =>
    simp only [Table.read, Table.write] at hread hwrite
    split_ifs at hread hwrite
    have hpair : arrayPair t.array i = some (.number (castNum (BitVec.ofNat 32 (i + 1))), w) :=
      arrayPair_eq_some.mpr ⟨rfl, Except.ok.inj hread, hw⟩
    have ht' := Except.ok.inj hwrite
    rcases position t p with hlt | ⟨j, rfl⟩
    · rw [entryAt_array hlt]
      by_cases hpi : p = i
      · rw [hpi, hpair]
        rfl
      · rw [entryAt_array (hsize ▸ hlt), ← ht'] at hp
        simpa only [arrayPair, hpi, if_false] using hp
    · rw [← hsize, entryAt_node, ← ht'] at hp
      rw [entryAt_node]
      exact hp
  | node i =>
    have hpair : t.pairAt i = some ((t.node i).key, w) :=
      pairAt_eq_some.mpr ⟨rfl, Except.ok.inj hread, hw⟩
    have ht' := Except.ok.inj hwrite
    rcases position t p with hlt | ⟨j, rfl⟩
    · rw [entryAt_array (hsize ▸ hlt), ← ht'] at hp
      rw [entryAt_array hlt]
      exact hp
    · rw [← hsize, entryAt_node, ← ht'] at hp
      rw [entryAt_node]
      by_cases hji : j = i
      · rw [hji, hpair]
        rfl
      · rwa [pairAt_setVal_other t v hji] at hp

theorem nextArray_first (hmem : n ≤ t.allocated) :
    ∃ r, nextArray t (List.range' i (n - i)) = .ok (r.map Prod.snd) ∧
      First (arrayPair t.array) i n r := by
  induction hrest : n - i generalizing i with
  | zero => exact ⟨none, rfl, .empty (by omega)⟩
  | succ rest ih =>
    have hread : t.read (.array i) = .ok (t.array i) := if_pos (by omega)
    rw [List.range'_succ, nextArray, hread]
    by_cases hnil : (t.array i).isNil = true
    · obtain ⟨r, hnext, hfirst⟩ := ih (i := i + 1) (by omega)
      have hempty : arrayPair t.array i = none := if_pos hnil
      exact ⟨r, (if_pos hnil).trans hnext, hfirst.skip hempty⟩
    · refine ⟨some (i, _, t.array i), if_neg hnil, .found (Nat.le_refl i) (by omega) (if_neg hnil) ?_⟩
      intro q hq hlt
      omega

omit [LuaNumber N] in
theorem nextNode_first (t : Table N) (i n : Nat) :
    ∃ r, nextNode t (List.range' i (n - i)) = r.map Prod.snd ∧ First t.pairAt i n r := by
  induction hrest : n - i generalizing i with
  | zero => exact ⟨none, rfl, .empty (by omega)⟩
  | succ rest ih =>
    rw [List.range'_succ, nextNode]
    by_cases hnil : (t.node i).val.isNil = true
    · obtain ⟨r, hnext, hfirst⟩ := ih (i + 1) (by omega)
      have hempty : t.pairAt i = none := if_pos hnil
      exact ⟨r, (if_pos hnil).trans hnext, hfirst.skip hempty⟩
    · refine ⟨some (i, _, (t.node i).val), if_neg hnil,
        .found (Nat.le_refl i) (by omega) (if_neg hnil) ?_⟩
      intro q hq hlt
      omega

end Entries

namespace Aged

variable [LawfulNumber N] {hash : TValue N → Nat} {gcvalue : Gcvalue N} {a : Aged N} {key : TValue N}
  {p : Nat}

/-- The position of a key, as `findindex` comes to it; the key may be dead. -/
inductive At (hash : TValue N → Nat) (gcvalue : Gcvalue N) (a : Aged N) : TValue N → Nat → Prop
  | array {i : Nat} (hin : i < a.table.sizearray) :
      At hash gcvalue a (.number (castNum (BitVec.ofNat 32 (i + 1)))) i
  | node {i : Nat} {key : TValue N} (hkey : key ≠ .nil) (hout : a.table.sizearray ≤ index key)
      (h : Located hash gcvalue a key i) : At hash gcvalue a key (a.table.sizearray + i)

section Next

omit [LawfulNumber N] in
theorem findindex_eq (hkey : key ≠ .nil) : findindex hash gcvalue a key =
    let i := (arrayindex key).toInt
    if 0 < i ∧ i ≤ a.table.sizearray then .ok (i - 1)
    else
      match find a.table.nextAt (a.isKey gcvalue key) a.table.sizenode
          (mainposition hash a.table key) with
      | some n => cInt (n + a.table.sizearray)
      | none => .error (.raised "invalid key to 'next'") := by
  cases key with
  | nil => exact absurd rfl hkey
  | _ => rfl

omit [LawfulNumber N] in
theorem arrayindex_out {size : Nat} (hout : size ≤ index key) :
    ¬ (0 < (arrayindex key).toInt ∧ (arrayindex key).toInt ≤ size) := by
  unfold index at hout
  generalize arrayindex key = b at hout
  intro ⟨hpos, hle⟩
  have hb : b.toInt = b.toNat := by
    rw [BitVec.toInt_eq_toNat_cond] at hpos ⊢
    split_ifs at hpos ⊢ with hlt
    · rfl
    · have hmax := b.isLt
      omega
  have hsub : (b - 1).toNat = b.toNat - 1 := by bv_omega
  omega

theorem At.findindex (h : At hash gcvalue a key p) (hsize : a.table.sizearray < 2 ^ 31)
    (hp : p < 2 ^ 31) : findindex hash gcvalue a key = .ok p := by
  cases h with
  | @array hin =>
    have hint : (BitVec.ofNat 32 (p + 1)).toInt = p + 1 := by
      rw [BitVec.toInt_ofNat', Int.bmod_eq_of_le] <;> omega
    rw [findindex_eq (by simp), arrayindex_castNum, hint]
    dsimp only
    rw [if_pos (by omega)]
    congr 1
    omega
  | @node i _ hkey hout h =>
    rw [findindex_eq hkey]
    dsimp only
    have h : find a.table.nextAt (a.isKey gcvalue key) a.table.sizenode
        (mainposition hash a.table key) = some i := h
    rw [if_neg (arrayindex_out hout), h]
    dsimp only
    rw [cInt, if_pos (by omega)]
    congr 1
    omega

omit [LawfulNumber N] in
theorem Valid.seen_pairAt (h : Valid hash gcvalue a) : a.seen.pairAt = a.table.pairAt := by
  funext i
  cases hd : a.dead i with
  | none => simp only [pairAt, seen_key hd]
  | some p =>
    rw [pairAt_eq_none.mpr (h.dead i p hd).1]
    simp only [pairAt, seen, hd, Option.isSome_some, if_true, (h.dead i p hd).1, TValue.isNil]

omit [LawfulNumber N] in
/-- `luaH_next` goes on after the position that `findindex` comes to. -/
theorem Valid.luaHNext_first (h : Valid hash gcvalue a) {i : Int}
    (hfind : Aged.findindex hash gcvalue a key = .ok i) (hlo : -1 ≤ i) (hhi : i + 1 < 2 ^ 31) :
    ∃ r, luaHNext hash gcvalue a key = .ok (r.map Prod.snd) ∧
      First (entryAt a.table) (i + 1).toNat (a.table.sizearray + a.table.sizenode) r := by
  have hint : cInt (i + 1) = .ok (i + 1) := if_pos (by omega)
  generalize hlo' : (i + 1).toNat = lo
  obtain ⟨r, hnext, hfirst⟩ := nextArray_first (i := lo) h.sound.memory
  have hfirst : First (entryAt a.table) lo a.table.sizearray r :=
    hfirst.congr fun p _ hp => entryAt_array hp
  cases r with
  | some r =>
    refine ⟨some r, ?_, hfirst.extend (Nat.le_add_right _ _)⟩
    simp only [luaHNext, hfind, Loop.ok_bind, hint, hlo', hnext, Option.map_some]
  | none =>
    have hrun : luaHNext hash gcvalue a key = .ok (nextNode a.seen
        (List.range' (lo - a.table.sizearray) (a.table.sizenode - (lo - a.table.sizearray)))) := by
      simp only [luaHNext, hfind, Loop.ok_bind, hint, hlo', hnext, Option.map_none]
    obtain ⟨r, hnode, hnodes⟩ := nextNode_first a.seen (lo - a.table.sizearray) a.table.sizenode
    have hnodes := (hnodes.congr fun p _ _ =>
      (entryAt_node a.table p).trans (congrFun h.seen_pairAt p).symm).shift
    have hall : First (entryAt a.table) lo (a.table.sizearray + a.table.sizenode)
        (r.map fun x => (a.table.sizearray + x.1, x.2)) := by
      by_cases hle : lo ≤ a.table.sizearray
      · rw [Nat.sub_eq_zero_of_le hle, Nat.add_zero] at hnodes
        exact hfirst.append hnodes hle
      · rw [Nat.add_sub_cancel' (Nat.le_of_not_le hle)] at hnodes
        exact hnodes
    have hsnd : (r.map fun x => (a.table.sizearray + x.1, x.2)).map Prod.snd = r.map Prod.snd :=
      Option.map_map _ _ r
    refine ⟨_, ?_, hall⟩
    rw [hrun, hnode, hsnd]

end Next

/-! ## Runs -/

/-- A traversal by `luaH_next` from nil, with the keys that it has returned, the last one first. Between
two calls there are only stores to keys that have a value, and the collector. -/
inductive Traverses (hash : TValue N → Nat) (depth : Nat) (gcvalue0 : Gcvalue N) (a0 : Aged N) :
    Gcvalue N → Aged N → List (TValue N) → Prop
  | start : Traverses hash depth gcvalue0 a0 gcvalue0 a0 []
  | assign {gcvalue : Gcvalue N} {a a1 : Aged N} {ks : List (TValue N)} {s : Slot} {t : Table N}
      {key w v : TValue N} (h : Traverses hash depth gcvalue0 a0 gcvalue a ks)
      (hlookup : lookup hash a.seen key = .ok w) (hw : w ≠ .nil)
      (hset : a.luaHSet hash depth key = .ok (s, a1)) (hwrite : a1.table.write v s = .ok t) :
      Traverses hash depth gcvalue0 a0 gcvalue ⟨t, a1.dead⟩ ks
  | collect {gcvalue gcvalue' : Gcvalue N} {a a' : Aged N} {ks : List (TValue N)}
      (h : Traverses hash depth gcvalue0 a0 gcvalue a ks)
      (hcollect : Collects (ks.headD .nil) gcvalue a gcvalue' a') :
      Traverses hash depth gcvalue0 a0 gcvalue' a' ks
  | next {gcvalue : Gcvalue N} {a : Aged N} {ks : List (TValue N)} {k v : TValue N}
      (h : Traverses hash depth gcvalue0 a0 gcvalue a ks)
      (hnext : luaHNext hash gcvalue a (ks.headD .nil) = .ok (some (k, v))) :
      Traverses hash depth gcvalue0 a0 gcvalue a (k :: ks)

/-- A table on the way, with the positions of the keys returned. -/
structure Visited (hash : TValue N → Nat) (a0 : Aged N) (gcvalue : Gcvalue N) (a : Aged N)
    (ks : List (TValue N)) (ps : List Nat) : Prop where
  valid : Valid hash gcvalue a
  sizearray : a.table.sizearray = a0.table.sizearray
  sizenode : a.table.sizenode = a0.table.sizenode
  key : ∀ p, keyOf a.table p = keyOf a0.table p
  trace : Trace (a0.table.sizearray + a0.table.sizenode) (entryAt a0.table) (entryAt a.table) ps
  keys : ks = ps.map (keyOf a0.table)
  current : ∀ p, ps.head? = some p → At hash gcvalue a (ks.headD .nil) p

section Runs

variable {a0 a1 a' : Aged N} {gcvalue0 gcvalue' : Gcvalue N} {ks : List (TValue N)} {ps : List Nat}
  {s : Slot} {t : Table N} {w v k : TValue N} {depth : Nat}

/-- Where a key with a value is. -/
theorem Valid.entry_of_lookup (h : Valid hash gcvalue a) (hhash : Consistent hash)
    (hlookup : lookup hash a.seen key = .ok w) (hw : w ≠ .nil) :
    ∃ p e, entryAt a.table p = some e ∧ luaORawequalObj e.1 key = true := by
  have hkey : key ≠ .nil := by
    rintro rfl
    cases hlookup
    exact hw rfl
  have hkept := h.get_kept hhash hkey
  rw [lookup] at hlookup
  generalize luaHGet hash a.seen key = place at hlookup hkept
  cases hkept with
  | array hin =>
    have hin : index key < a.table.sizearray := hin
    have hval : a.table.array (index key) = w := by
      simp only [found, Table.read] at hlookup
      split_ifs at hlookup
      exact Except.ok.inj hlookup
    have hsize : index key < 2 ^ 31 := Nat.lt_trans hin h.sound.sizearray
    refine ⟨index key, (_, w), (entryAt_array hin).trans (arrayPair_eq_some.mpr ⟨rfl, hval, hw⟩), ?_⟩
    refine rawequal_symm (rawequal_of_index hsize ?_)
    exact index_castNum hsize
  | @node i k hout hi hk =>
    obtain ⟨hi, hd⟩ := seen_keyAt.mp hi
    have hval : (a.table.node i).val = w := by
      have hread := Except.ok.inj hlookup
      rw [seen_key hd] at hread
      exact hread
    refine ⟨a.table.sizearray + i, (k, w), ?_, hk⟩
    rw [entryAt_node]
    exact pairAt_eq_some.mpr ⟨(keyAt_eq_some.mp hi).1, hval, hw⟩
  | none hout hnone =>
    cases hlookup
    exact absurd rfl hw

/-- The keys of two positions are not equal. -/
theorem Valid.entries_apart (h : Valid hash gcvalue a) (hhash : Consistent hash) {p q : Nat}
    {e e' : TValue N × TValue N} (hp : entryAt a.table p = some e) (hq : entryAt a.table q = some e')
    (heq : luaORawequalObj e.1 e'.1 = true) : p = q := by
  have hindex : index e.1 = index e'.1 := by rw [index, index, arrayindex_congr heq]
  have harray : ∀ {p e}, p < a.table.sizearray → entryAt a.table p = some e → index e.1 = p := by
    intro p e hlt hp
    rw [entryAt_array hlt] at hp
    rw [(arrayPair_eq_some.mp hp).1]
    exact index_castNum (Nat.lt_trans hlt h.sound.sizearray)
  have hnode : ∀ {i e}, entryAt a.table (a.table.sizearray + i) = some e →
      a.seen.keyAt i = some e.1 ∧ a.table.sizearray ≤ index e.1 := by
    intro i e hi
    rw [entryAt_node] at hi
    exact ⟨seen_of_pair h hi, h.sound.ints i e.1 (h.sound.keyAt_of_pair hi)⟩
  rcases position a.table p with hlt | ⟨i, rfl⟩
  · have hip := harray hlt hp
    rcases position a.table q with hlt' | ⟨j, rfl⟩
    · rw [← hip, hindex, harray hlt' hq]
    · have hout := (hnode hq).2
      omega
  · obtain ⟨hi, hout⟩ := hnode hp
    rcases position a.table q with hlt' | ⟨j, rfl⟩
    · have hjq := harray hlt' hq
      omega
    · rw [h.keys hhash hi (hnode hq).1 heq]

omit [LawfulNumber N] in
/-- Where an entry is, `findindex` comes to it. -/
theorem Valid.at_of_entry (h : Valid hash gcvalue a) {p : Nat} {e : TValue N × TValue N}
    (hp : entryAt a.table p = some e) : At hash gcvalue a e.1 p := by
  rcases position a.table p with hlt | ⟨i, rfl⟩
  · rw [entryAt_array hlt] at hp
    rw [(arrayPair_eq_some.mp hp).1]
    exact .array hlt
  · rw [entryAt_node] at hp
    have hkey := h.sound.keyAt_of_pair hp
    exact .node (keyAt_eq_some.mp hkey).2 (h.sound.ints i e.1 hkey) (h.located i e.1 (seen_of_pair h hp))

omit [LuaNumber N] [LawfulNumber N] in
theorem seen_read (a : Aged N) (s : Slot) : a.seen.read s = a.table.read s := by
  cases s with
  | array i => rfl
  | node i =>
    cases hd : a.dead i with
    | none => simp only [Table.read, seen_key hd]
    | some p => simp only [Table.read, seen, hd, Option.isSome_some, if_true]

/-- A store to a key with a value goes to where the value is. -/
theorem Valid.assigned (h : Valid hash gcvalue a) (hhash : Consistent hash)
    (hlookup : lookup hash a.seen key = .ok w) (hw : w ≠ .nil)
    (hset : a.luaHSet hash depth key = .ok (s, a1)) :
    a1 = a ∧ Kept a.seen key (some s) ∧ a.table.read s = .ok w := by
  have hkey : key ≠ .nil := by
    rintro rfl
    cases hlookup
    exact hw rfl
  have hkept := h.get_kept hhash hkey
  rw [lookup] at hlookup
  unfold Aged.luaHSet at hset
  cases hget : luaHGet hash a.seen key with
  | some s' =>
    rw [hget] at hset hkept hlookup
    cases hset
    exact ⟨rfl, hkept, (seen_read a s).symm.trans hlookup⟩
  | none =>
    rw [hget] at hlookup
    cases hlookup
    exact absurd rfl hw

theorem Visited.assign (h : Visited hash a0 gcvalue a ks ps) (hhash : Consistent hash)
    (hlookup : lookup hash a.seen key = .ok w) (hw : w ≠ .nil)
    (hset : a.luaHSet hash depth key = .ok (s, a1)) (hwrite : a1.table.write v s = .ok t) :
    Visited hash a0 gcvalue ⟨t, a1.dead⟩ ks ps := by
  obtain ⟨rfl, hkept, hread⟩ := h.valid.assigned hhash hlookup hw hset
  have hrewritten := write_rewritten hwrite
  have hsizenode : t.sizenode = a1.table.sizenode := congrArg (2 ^ ·) hrewritten.lsizenode
  refine ⟨h.valid.write hkept hwrite, hrewritten.sizearray.trans h.sizearray,
    hsizenode.trans h.sizenode, fun p => ?_, h.trace.change fun p => write_entries hread hw hwrite,
    h.keys, fun p hp => ?_⟩
  · rw [← h.key p]
    simp only [keyOf, hrewritten.sizearray, hrewritten.key]
  · have hcurrent := h.current p hp
    generalize ks.headD .nil = cur at hcurrent ⊢
    cases hcurrent with
    | array hin => exact .array (hrewritten.sizearray ▸ hin)
    | node hkey hout hlocated =>
      rw [← hrewritten.sizearray] at hout ⊢
      exact .node hkey hout (hrewritten.located.mpr hlocated)

omit [LawfulNumber N] in
theorem Visited.collect (h : Visited hash a0 gcvalue a ks ps)
    (hcollect : Collects (ks.headD .nil) gcvalue a gcvalue' a') :
    Visited hash a0 gcvalue' a' ks ps := by
  obtain ⟨hvalid, htable, hlocated⟩ := h.valid.collects hcollect
  refine ⟨hvalid, htable ▸ h.sizearray, htable ▸ h.sizenode, fun p => htable ▸ h.key p,
    htable ▸ h.trace, h.keys, fun p hp => ?_⟩
  have hcurrent := h.current p hp
  generalize ks.headD .nil = cur at hcurrent hlocated ⊢
  cases hcurrent with
  | array hin => exact .array (htable ▸ hin)
  | node hkey hout hloc =>
    rw [← htable] at hout ⊢
    exact .node hkey hout (hlocated _ hloc)

/-- `luaH_next` finds the first position after the last one that is not empty. -/
theorem Visited.first (h : Visited hash a0 gcvalue a ks ps)
    (hroom : ∀ p, (entryAt a0.table p).isSome → p + 1 < 2 ^ 31) :
    ∃ r, luaHNext hash gcvalue a (ks.headD .nil) = .ok (r.map Prod.snd) ∧
      First (entryAt a.table) (after ps) (a0.table.sizearray + a0.table.sizenode) r := by
  rw [← h.sizearray, ← h.sizenode]
  cases hps : ps with
  | nil =>
    have hks : ks = [] := by
      rw [h.keys, hps]
      rfl
    have hfind : Aged.findindex hash gcvalue a .nil = .ok (-1) := rfl
    rw [hks]
    exact h.valid.luaHNext_first hfind (by decide) (by decide)
  | cons p qs =>
    have hcurrent := h.current p (by rw [hps]; rfl)
    have hlt := hroom p (h.trace.sorted.2 p (hps ▸ List.mem_cons_self)).2.2
    have hfind := hcurrent.findindex h.valid.sound.sizearray (by omega)
    exact h.valid.luaHNext_first hfind (by omega) (by omega)

theorem Visited.next (h : Visited hash a0 gcvalue a ks ps)
    (hroom : ∀ p, (entryAt a0.table p).isSome → p + 1 < 2 ^ 31)
    (hnext : luaHNext hash gcvalue a (ks.headD .nil) = .ok (some (k, v))) :
    ∃ p, Visited hash a0 gcvalue a (k :: ks) (p :: ps) := by
  obtain ⟨r, hrun, hfirst⟩ := h.first hroom
  rw [hnext] at hrun
  obtain ⟨⟨p, e⟩, rfl, he⟩ := Option.map_eq_some_iff.mp (Except.ok.inj hrun).symm
  have hentry : entryAt a.table p = some (k, v) := by
    cases hfirst with
    | found _ _ hp _ => exact he ▸ hp
  refine ⟨p, h.valid, h.sizearray, h.sizenode, h.key, h.trace.next hfirst, ?_, fun q hq => ?_⟩
  · rw [List.map_cons, ← h.keys, ← h.key p, entryAt_key hentry]
  · cases hq
    exact h.valid.at_of_entry hentry

/-- A traversal follows the positions. -/
theorem Traverses.visited (hhash : Consistent hash) (h0 : Valid hash gcvalue0 a0)
    (hroom : ∀ p, (entryAt a0.table p).isSome → p + 1 < 2 ^ 31)
    (h : Traverses hash depth gcvalue0 a0 gcvalue a ks) :
    ∃ ps, Visited hash a0 gcvalue a ks ps := by
  induction h with
  | start => exact ⟨[], h0, rfl, rfl, fun _ => rfl, .start, rfl, fun p hp => by cases hp⟩
  | assign _ hlookup hw hset hwrite ih =>
    obtain ⟨ps, hvisited⟩ := ih
    exact ⟨ps, hvisited.assign hhash hlookup hw hset hwrite⟩
  | collect _ hcollect ih =>
    obtain ⟨ps, hvisited⟩ := ih
    exact ⟨ps, hvisited.collect hcollect⟩
  | next _ hnext ih =>
    obtain ⟨ps, hvisited⟩ := ih
    obtain ⟨p, hvisited⟩ := hvisited.next hroom hnext
    exact ⟨p :: ps, hvisited⟩

theorem Visited.keys_apart (h : Visited hash a0 gcvalue a ks ps) (hhash : Consistent hash)
    (h0 : Valid hash gcvalue0 a0) :
    ks.Pairwise fun k k' => luaORawequalObj k k' = false := by
  obtain ⟨hsorted, hmem⟩ := h.trace.sorted
  rw [h.keys, List.pairwise_map]
  refine hsorted.imp_of_mem fun {p q} hp hq hlt => ?_
  obtain ⟨e, he⟩ := Option.isSome_iff_exists.mp (hmem p hp).2.2
  obtain ⟨e', he'⟩ := Option.isSome_iff_exists.mp (hmem q hq).2.2
  rw [entryAt_key he, entryAt_key he']
  by_contra hne
  rw [Bool.not_eq_false] at hne
  exact absurd (h0.entries_apart hhash he he' hne) (Nat.ne_of_gt hlt)

end Runs

end Aged

open Aged

/-- A traversal that only stores to keys with a value, while the collector may work, makes no error and
comes to an end; it returns every key at most once, and a key that has a value at the end, as it had from
the start, is one of those returned. -/
theorem Traverses.each_once [LawfulNumber N] {hash : TValue N → Nat} (hhash : Consistent hash)
    {depth : Nat} (hdepth : 3 ≤ depth) {gcvalue0 gcvalue : Gcvalue N} {a0 a : Aged N}
    {ks : List (TValue N)} (h0 : Reached hash depth gcvalue0 a0)
    (hroom : ∀ i p, a0.table.pairAt i = some p → a0.table.sizearray + i + 1 < 2 ^ 31)
    (h : Traverses hash depth gcvalue0 a0 gcvalue a ks) :
    (∃ r, luaHNext hash gcvalue a (ks.headD .nil) = .ok r) ∧
      ks.length ≤ a0.table.sizearray + a0.table.sizenode ∧
      (ks.Pairwise fun k k' => luaORawequalObj k k' = false) ∧
      (luaHNext hash gcvalue a (ks.headD .nil) = .ok none → ∀ key v,
        lookup hash a.seen key = .ok v → v ≠ .nil → ∃ k ∈ ks, luaORawequalObj k key = true) := by
  have hvalid := h0.valid hhash hdepth
  have hroom : ∀ p, (entryAt a0.table p).isSome → p + 1 < 2 ^ 31 := by
    intro p hp
    rcases position a0.table p with hlt | ⟨i, rfl⟩
    · have hsize := hvalid.sound.sizearray
      omega
    · obtain ⟨e, he⟩ := Option.isSome_iff_exists.mp hp
      rw [entryAt_node] at he
      exact hroom i e he
  obtain ⟨ps, hvisited⟩ := h.visited hhash hvalid hroom
  obtain ⟨r, hnext, hfirst⟩ := hvisited.first hroom
  refine ⟨⟨_, hnext⟩, ?_, hvisited.keys_apart hhash hvalid, fun hend key v hlookup hv => ?_⟩
  · rw [hvisited.keys, List.length_map]
    exact hvisited.trace.length_le
  · have hr : r = none := by
      rw [hnext] at hend
      exact Option.map_eq_none_iff.mp (Except.ok.inj hend)
    obtain ⟨p, e, he, hkey⟩ := hvisited.valid.entry_of_lookup hhash hlookup hv
    have hp : (entryAt a.table p).isSome := by
      rw [he]
      rfl
    have hlt := entryAt_lt hvisited.valid.sound hp
    rw [hvisited.sizearray, hvisited.sizenode] at hlt
    have hmem := hvisited.trace.complete (hr ▸ hfirst) hlt hp
    refine ⟨e.1, ?_, hkey⟩
    rw [hvisited.keys, ← entryAt_key he, hvisited.key p]
    exact List.mem_map_of_mem hmem

/-- Addresses where there is one object, a string. -/
def stringAt : Gcvalue Int
  | .string [120] => some 1
  | _ => none

theorem stringAt_apart : stringAt.Apart := by
  have hone : ∀ k p, stringAt k = some p → k = .string [120] := by
    intro k p hk
    unfold stringAt at hk
    split at hk
    · rfl
    · cases hk
  intro k k' p _ _ hk hk'
  rw [hone k p hk, hone k' p hk']

/-- In this traversal a string is emptied when it has been returned, and its key dies. -/
theorem Traverses.each_once_string : ∃ (a0 a : Aged Int) (ks : List (TValue Int)),
    (a.dead 0 = some 1 ∧ ks = [.number (castNum 2), .string [120]]) ∧
    (∃ r, luaHNext (fun _ => 0) stringAt a (ks.headD .nil) = .ok r) ∧
      ks.length ≤ a0.table.sizearray + a0.table.sizenode ∧
      (ks.Pairwise fun k k' => luaORawequalObj k k' = false) ∧
      (luaHNext (fun _ => 0) stringAt a (ks.headD .nil) = .ok none → ∀ key v,
        lookup (fun _ => 0) a.seen key = .ok v → v ≠ .nil →
          ∃ k ∈ ks, luaORawequalObj k key = true) := by
  obtain ⟨t, a1, t1, a2, t2, hnew, hsetstr, hwrite1, hsetnum, hwrite2, hsizes, hnext⟩ :
      ∃ (t : Table Int) (a1 : Aged Int) (t1 : Table Int) (a2 : Aged Int) (t2 : Table Int),
        luaHNew 0 2 = .ok t ∧
        Aged.luaHSetstr (fun _ => 0) 3 ⟨t, fun _ => none⟩ [120] = .ok (.node 0, a1) ∧
        a1.table.write (.boolean true) (.node 0) = .ok t1 ∧
        Aged.luaHSetnum (fun _ => 0) 3 ⟨t1, a1.dead⟩ 2 = .ok (.node 1, a2) ∧
        a2.table.write (.boolean true) (.node 1) = .ok t2 ∧
        (t2.sizearray = 0 ∧ t2.sizenode = 2) ∧
        luaHNext (fun _ => 0) stringAt ⟨t2, a2.dead⟩ .nil = .ok (some (.string [120], .boolean true)) ∧
        ∃ (a3 : Aged Int) (t3 : Table Int),
          lookup (fun _ => 0) (Aged.seen ⟨t2, a2.dead⟩) (.string [120]) = .ok (.boolean true) ∧
          Aged.luaHSet (fun _ => 0) 3 ⟨t2, a2.dead⟩ (.string [120]) = .ok (.node 0, a3) ∧
          a3.table.write .nil (.node 0) = .ok t3 ∧ (t3.node 0).val = .nil ∧
          (Aged.removeentry stringAt ⟨t3, a3.dead⟩ 0).dead 0 = some 1 ∧
          luaHNext (fun _ => 0) stringAt (Aged.removeentry stringAt ⟨t3, a3.dead⟩ 0) (.string [120]) =
            .ok (some (.number (castNum 2), .boolean true)) :=
    ⟨_, _, _, _, _, rfl, rfl, rfl, rfl, rfl, ⟨rfl, rfl⟩, rfl, _, _, rfl, rfl, rfl, rfl, rfl,
      by decide⟩
  obtain ⟨a3, t3, hlookup, hset, hwrite3, hnil, hdead, hnext'⟩ := hnext.2
  have hreached : Reached (fun _ => 0) 3 stringAt ⟨t2, a2.dead⟩ :=
    .setnum (.setstr (.new stringAt_apart (by decide) hnew) hsetstr hwrite1) hsetnum hwrite2
  have hcollect : Collects (.string [120]) stringAt ⟨t3, a3.dead⟩ stringAt
      (Aged.removeentry stringAt ⟨t3, a3.dead⟩ 0) := by
    refine ⟨⟨[0], fun i hi => ?_, rfl⟩, stringAt_apart, fun _ _ => rfl⟩
    rw [List.mem_singleton.mp hi]
    exact hnil
  have hrun : Traverses (fun _ => 0) 3 stringAt ⟨t2, a2.dead⟩ stringAt _ _ :=
    .next (.collect (.assign (.next .start hnext.1) hlookup (by simp) hset hwrite3) hcollect) hnext'
  refine ⟨_, _, _, ⟨hdead, rfl⟩, Traverses.each_once (fun _ _ _ => rfl) (by decide) hreached ?_ hrun⟩
  intro i p hp
  have hlt := (hreached.valid (fun _ _ _ => rfl) (by decide)).sound.scattered.lt
    ((hreached.valid (fun _ _ _ => rfl) (by decide)).sound.keyAt_of_pair hp)
  obtain ⟨hsize, hnodes⟩ := hsizes
  have hlt : i < t2.sizenode := hlt
  have hsize : (⟨t2, a2.dead⟩ : Aged Int).table.sizearray = 0 := hsize
  omega

/-- A table left by a store without memory for the new node vector: the traversal returns the key 2 for
ever. -/
theorem traversal_never_ends : ∃ (t t' : Table Int) (m : TValue Int → TValue Int)
    (r : Refusal.Request Int), Stores (fun _ => 0) 3 t m ∧
    Refusal.luaHSet (fun _ site => site == .array) (fun _ => 0) 3 t (.number (castNum 1)) =
      .error (.raised r t') ∧
    ∀ n, Traverses (fun _ => 0) 3 stringAt ⟨t', fun _ => none⟩ stringAt ⟨t', fun _ => none⟩
      (List.replicate n (.number (castNum 2))) := by
  obtain ⟨t0, t1, t2, t3, t, hnew, hset, hwrite, hset', hwrite', hstop, hfirst, hagain⟩ :
      ∃ t0 t1 t2 t3 t : Table Int, luaHNew 0 2 = .ok t0 ∧
      Ltable.luaHSetnum (fun _ => 0) 3 t0 2 = .ok (.node 0, t1) ∧
      t1.write (.boolean true) (.node 0) = .ok t2 ∧
      Ltable.luaHSet (fun _ => 0) 3 t2 (.string [120]) = .ok (.node 1, t3) ∧
      t3.write (.boolean true) (.node 1) = .ok t ∧
      Refusal.luaHSet (fun _ site => site == .array) (fun _ => 0) 3 t (.number (castNum 1)) =
        .error (.raised ⟨[.number (castNum 1)], .nodes⟩
          (Ltable.setarrayvector 2 { t with lastfree := 0 })) ∧
      luaHNext (fun _ => 0) stringAt ⟨Ltable.setarrayvector 2 { t with lastfree := 0 }, fun _ => none⟩
        .nil = .ok (some (.number (castNum 2), .boolean true)) ∧
      luaHNext (fun _ => 0) stringAt ⟨Ltable.setarrayvector 2 { t with lastfree := 0 }, fun _ => none⟩
        (.number (castNum 2)) = .ok (some (.number (castNum 2), .boolean true)) :=
    ⟨_, _, _, _, _, rfl, rfl, rfl, rfl, rfl, rfl, rfl, rfl⟩
  refine ⟨t, _, _, _, .set _ (.setnum _ (.new (by decide) hnew) hset hwrite) hset' hwrite', hstop,
    fun n => ?_⟩
  induction n with
  | zero => exact .start
  | succ n ih =>
    refine .next (v := .boolean true) ih ?_
    cases n with
    | zero => exact hfirst
    | succ n => exact hagain

end UgmeeLua.Ltable

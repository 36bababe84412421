import UgmeeLua.Ltable.HalfResized

namespace UgmeeLua.Ltable.Refusal

open Scatter Ltable.Table LawfulNumber

variable {N : Type}

/-- What the requests are that an operation stops at. -/
def Asks {α : Type} (R : Request N → Prop) (x : Except (Stop N) α) : Prop :=
  ∀ r t, x = .error (.raised r t) → R r

section Asks

variable {α β : Type} {R : Request N → Prop}

theorem asks_ok (a : α) : Asks R (.ok a) := by
  intro r t h
  cases h

theorem asks_failure (f : Failure) : Asks R (.error (.failure f) : Except (Stop N) α) := by
  intro r t h
  cases h

theorem asks_raised {r : Request N} (t : Table N) (h : R r) :
    Asks R (.error (.raised r t) : Except (Stop N) α) := by
  intro r' t' h'
  cases h'
  exact h

theorem Asks.bind {x : Except (Stop N) α} {f : α → Except (Stop N) β} (h : Asks R x)
    (hf : ∀ a, Asks R (f a)) : Asks R (x >>= f) := by
  cases x with
  | ok a => exact hf a
  | error e =>
    intro r t hr
    cases hr
    exact h r t rfl

theorem asks_lift (x : Except Failure α) : Asks R (lift x) := by
  cases x with
  | ok a => exact asks_ok a
  | error f => exact asks_failure f

variable [LuaNumber N] {hash : TValue N → Nat} {newkey : Newkey N}

theorem asks_setWith (hnew : ∀ t k, Asks R (newkey t k)) (t : Table N) (key : TValue N) :
    Asks R (setWith hash newkey t key) := by
  unfold setWith
  cases luaHGet hash t key with
  | some p => exact asks_ok _
  | none =>
    cases key with
    | nil => exact asks_failure _
    | number n =>
      dsimp only
      split_ifs
      · exact asks_failure _
      · exact hnew t _
    | _ => exact hnew t _

theorem asks_reinsertArray [LawfulNumber N] (hnew : ∀ t k, Asks R (newkey t k)) (is : List Nat)
    (t : Table N) : Asks R (reinsertArray hash newkey is t) := by
  induction is generalizing t with
  | nil => exact asks_ok t
  | cons i is ih =>
    rw [reinsertArray]
    refine (asks_lift _).bind fun v => ?_
    split_ifs
    · exact ih t
    · rw [setnumWith_eq]
      exact (asks_setWith hnew t _).bind fun r => (asks_lift _).bind fun v =>
        (asks_lift _).bind fun t' => ih t'

theorem asks_reinsertNodes (hnew : ∀ t k, Asks R (newkey t k)) (nold : Nat → Node N) (is : List Nat)
    (t : Table N) : Asks R (reinsertNodes hash newkey nold is t) := by
  induction is generalizing t with
  | nil => exact asks_ok t
  | cons i is ih =>
    rw [reinsertNodes]
    split_ifs
    · exact ih t
    · exact (asks_setWith hnew t _).bind fun r => (asks_lift _).bind fun t' => ih t'

theorem asks_shrinkArray [LawfulNumber N] (hnew : ∀ t k, Asks R (newkey t k)) (nasize oldasize : Nat)
    (t : Table N) : Asks R (shrinkArray hash newkey nasize oldasize t) := by
  unfold shrinkArray
  split_ifs
  · exact (asks_reinsertArray hnew _ _).bind fun t' => asks_ok _
  · exact asks_ok t

variable [LawfulNumber N] {granted : Allocator N}

/-- The requests of a call of `newkey` have its key in their path. -/
theorem asks_newkeyAt (depth : Nat) (path : List (TValue N)) (t : Table N) (key : TValue N) :
    Asks (fun r => path.length < r.path.length) (newkeyAt granted hash depth path t key) := by
  induction depth generalizing path t key with
  | zero => exact asks_failure _
  | succ depth ih =>
    have hown : ∀ site, path.length < (⟨key :: path, site⟩ : Request N).path.length := fun _ =>
      Nat.lt_succ_self _
    have hnew : ∀ t k, Asks (fun r => path.length < r.path.length)
        (newkeyAt granted hash depth (key :: path) t k) := fun t k r t' hr =>
      Nat.lt_of_succ_lt (ih (key :: path) t k r t' hr)
    unfold newkeyAt newkeyStep
    dsimp only
    split_ifs
    · cases getfreepos t t.lastfree with
      | mk n lastfree =>
        cases n with
        | none =>
          refine Asks.bind ?_ fun t' => asks_setWith hnew t' key
          unfold rehash resize
          refine Asks.bind ?_ fun t1 => Asks.bind ?_ fun t2 =>
            (asks_shrinkArray hnew _ _ t2).bind fun t3 => asks_reinsertNodes hnew _ _ t3
          · unfold growArray setarrayvector
            split_ifs
            · exact asks_ok _
            · exact asks_raised _ (hown _)
            · exact asks_ok _
          · unfold setnodevector
            dsimp only
            split_ifs
            · exact asks_ok _
            · exact asks_raised _ (hown _)
            · exact asks_ok _
            · exact asks_raised _ (hown _)
        | some n =>
          dsimp only
          split_ifs
          · exact asks_ok _
          · exact asks_ok _
    · exact asks_ok _

end Asks

/-- Every value that is found in a table is found in another one. -/
def Keeps [LuaNumber N] (hash : TValue N → Nat) (t t' : Table N) : Prop :=
  ∀ k v, v ≠ .nil → lookup hash t k = .ok v → lookup hash t' k = .ok v

section Stops

variable [LuaNumber N] [LawfulNumber N] {hash : TValue N → Nat} {newkey : Newkey N}
  {r : Request N} {t t' : Table N}

omit [LuaNumber N] [LawfulNumber N] in
theorem bind_raised {α β : Type} {x : Except (Stop N) α} {f : α → Except (Stop N) β}
    (h : (x >>= f) = .error (.raised r t')) :
    x = .error (.raised r t') ∨ ∃ a, x = .ok a ∧ f a = .error (.raised r t') := by
  cases x with
  | ok a => exact .inr ⟨a, rfl, h⟩
  | error e =>
    cases h
    exact .inl rfl

omit [LuaNumber N] [LawfulNumber N] in
theorem lift_not_raised {α : Type} {x : Except Failure α} :
    ¬ (lift x : Except (Stop N) α) = .error (.raised r t') := by
  cases x <;> exact fun h => by cases h

/-- Where the loop over the vanishing slice stops: at an element that is to be put back. -/
theorem reinsertArray_stops {is : List Nat}
    (h : reinsertArray hash newkey is t = .error (.raised r t')) :
    ∃ pre i post tm, is = pre ++ i :: post ∧ reinsertArray hash newkey pre t = .ok tm ∧
      tm.array i ≠ .nil ∧ setWith hash newkey tm (.number (castNum (BitVec.ofNat 32 (i + 1)))) =
        .error (.raised r t') := by
  induction is generalizing t with
  | nil => cases h
  | cons i is ih =>
    rw [reinsertArray] at h
    rcases bind_raised h with hread | ⟨v, hread, hrest⟩
    · exact absurd hread lift_not_raised
    · have hv : t.array i = v := by
        simp only [Table.read] at hread
        split_ifs at hread
        · cases hread
          rfl
        · cases hread
      split_ifs at hrest with hnil
      · obtain ⟨pre, j, post, tm, hsplit, hrun, hj, hset⟩ := ih hrest
        refine ⟨i :: pre, j, post, tm, by rw [hsplit]; rfl, ?_, hj, hset⟩
        rw [reinsertArray, hread]
        exact (if_pos hnil).trans hrun
      · rw [setnumWith_eq] at hrest
        rcases bind_raised hrest with hset | ⟨p, hset, hrest⟩
        · refine ⟨[], i, is, t, rfl, rfl, fun heq => hnil ?_, hset⟩
          exact (TValue.isNil_iff _).mpr (hv.symm.trans heq)
        · rcases bind_raised hrest with hread' | ⟨v', hread', hrest⟩
          · exact absurd hread' lift_not_raised
          · rcases bind_raised hrest with hwrite | ⟨t1, hwrite, hrest⟩
            · exact absurd hwrite lift_not_raised
            · obtain ⟨pre, j, post, tm, hsplit, hrun, hj, hset'⟩ := ih hrest
              refine ⟨i :: pre, j, post, tm, by rw [hsplit]; rfl, ?_, hj, hset'⟩
              rw [reinsertArray, hread]
              refine (if_neg hnil).trans ?_
              rw [setnumWith_eq, hset]
              change (lift (p.2.read (.array i)) >>= _) = _
              rw [hread']
              change (lift (p.2.write v' p.1) >>= _) = _
              rw [hwrite]
              exact hrun

omit [LawfulNumber N] in
theorem reinsertNodes_stops {nold : Nat → Node N} {is : List Nat}
    (h : reinsertNodes hash newkey nold is t = .error (.raised r t')) :
    ∃ pre i post tm, is = pre ++ i :: post ∧ reinsertNodes hash newkey nold pre t = .ok tm ∧
      (nold i).val ≠ .nil ∧ setWith hash newkey tm (nold i).key = .error (.raised r t') := by
  induction is generalizing t with
  | nil => cases h
  | cons i is ih =>
    rw [reinsertNodes] at h
    split_ifs at h with hnil
    · obtain ⟨pre, j, post, tm, hsplit, hrun, hj, hset⟩ := ih h
      refine ⟨i :: pre, j, post, tm, by rw [hsplit]; rfl, ?_, hj, hset⟩
      rw [reinsertNodes, if_pos hnil]
      exact hrun
    · rcases bind_raised h with hset | ⟨p, hset, hrest⟩
      · exact ⟨[], i, is, t, rfl, rfl, fun heq => hnil ((TValue.isNil_iff _).mpr heq), hset⟩
      · rcases bind_raised hrest with hwrite | ⟨t1, hwrite, hrest⟩
        · exact absurd hwrite lift_not_raised
        · obtain ⟨pre, j, post, tm, hsplit, hrun, hj, hset'⟩ := ih hrest
          refine ⟨i :: pre, j, post, tm, by rw [hsplit]; rfl, ?_, hj, hset'⟩
          rw [reinsertNodes, if_neg hnil, hset]
          change (lift (p.2.write (nold i).val p.1) >>= _) = _
          rw [hwrite]
          exact hrun

end Stops

/-- The table with its array grown, as `resize` leaves it until it has the new node vector. -/
structure Grown (t t1 : Table N) (nasize : Nat) : Prop where
  node : t1.node = t.node
  lsizenode : t1.lsizenode = t.lsizenode
  sizearray : t1.sizearray = max nasize t.sizearray
  array : ∀ i < t.sizearray, t1.array i = t.array i
  new : ∀ i, t.sizearray ≤ i → i < nasize → t1.array i = .nil
  memory : t1.sizearray ≤ t1.allocated

section Resize

variable [LuaNumber N] {hash : TValue N → Nat} {newkey : Newkey N} {granted : Allocator N}
  {path : List (TValue N)} {r : Request N} {t t' t0 t1 t2 : Table N} {nasize nhsize l b : Nat}
  {key : TValue N}

theorem growArray_grown (h : Inv hash t) (ht0 : t0 = { t with lastfree := l })
    (hrun : growArray granted path nasize t0.sizearray t0 = .ok t1) : Grown t t1 nasize := by
  subst ht0
  unfold growArray setarrayvector at hrun
  split_ifs at hrun with hgrow hgranted
  · cases hrun
    refine ⟨rfl, rfl, ?_, fun i hi => if_neg fun hc => ?_, fun i hi hlt => if_pos ⟨hi, hlt⟩,
      Nat.le_refl _⟩
    · exact (Nat.max_eq_left (Nat.le_of_lt hgrow)).symm
    · exact Nat.not_lt.mpr hc.1 hi
  · cases hrun
    have hle : nasize ≤ t.sizearray := Nat.le_of_not_lt hgrow
    refine ⟨rfl, rfl, (Nat.max_eq_right hle).symm, fun _ _ => rfl, fun i hi hlt => ?_, h.memory⟩
    omega

omit [LuaNumber N] in
theorem setnodevector_emptied (hrun : setnodevector granted path nhsize t1 = .ok t2) :
    t2.array = t1.array ∧ t2.sizearray = t1.sizearray ∧ ∀ i, t2.node i = emptyNode := by
  unfold setnodevector at hrun
  dsimp only at hrun
  split_ifs at hrun <;> cases hrun <;> exact ⟨rfl, rfl, fun _ => rfl⟩

theorem without_of_emptied (hkey : key ≠ .nil) (hnode : ∀ i, t2.node i = emptyNode)
    (hlacks : index key < t2.sizearray → t2.array (index key) = .nil)
    (harray : index key < b → t2.array (index key) = .nil) (hsize : t2.sizearray < 2 ^ 31) :
    Without key b t2 := by
  refine ⟨fun i => ?_, hlacks, harray, hsize⟩
  rw [hnode]
  cases key with
  | nil => exact absurd rfl hkey
  | _ => rfl

variable [LawfulNumber N]

/-- The step that makes keys of the hash part keys of the array loses their values. -/
theorem grown_keeps (h : Inv hash t) (hhash : Consistent hash) (hg : Grown t t1 nasize)
    (hnasize : nasize < 2 ^ 31) :
    Keeps hash t t1 ↔ ∀ p ∈ t.live, nasize ≤ index p.1 := by
  have hsize1 : t1.sizearray < 2 ^ 31 := by
    have hsize := h.sizearray
    rw [hg.sizearray]
    omega
  constructor
  · intro hkeeps p hp
    by_contra hlt
    have hlt : index p.1 < nasize := Nat.lt_of_not_le hlt
    obtain ⟨i, -, hi⟩ := mem_contents.mp hp
    obtain ⟨hkey, hval, hne⟩ := pairAt_eq_some.mp hi
    have hk := h.keyAt_of_pair hi
    have hlookup : lookup hash t p.1 = .ok p.2 := by
      rw [lookup, h.get_node hhash hk (h.proper i p.1 hk).2, ← hval]
      rfl
    have hout := h.ints i p.1 hk
    have hin : index p.1 < t1.sizearray := by
      rw [hg.sizearray]
      omega
    have hlost := hkeeps p.1 p.2 hne hlookup
    rw [lookup, luaHGet_array hsize1 hin, Table.found, Table.read,
      if_pos (Nat.lt_of_lt_of_le hin hg.memory), hg.new _ hout hlt] at hlost
    exact hne (Except.ok.inj hlost).symm
  · intro hfar k v hv hlookup
    have hk : k ≠ .nil := by
      intro hnil
      rw [hnil] at hlookup
      cases hlookup
      exact hv rfl
    by_cases hin : index k < t.sizearray
    · have hin1 : index k < t1.sizearray := by
        rw [hg.sizearray]
        omega
      rw [lookup, luaHGet_array h.sizearray hin, Table.found, Table.read,
        if_pos (Nat.lt_of_lt_of_le hin h.memory)] at hlookup
      rw [lookup, luaHGet_array hsize1 hin1, Table.found, Table.read,
        if_pos (Nat.lt_of_lt_of_le hin1 hg.memory), hg.array _ hin]
      exact hlookup
    · have hout : t.sizearray ≤ index k := Nat.le_of_not_lt hin
      have hout1 : t1.sizearray ≤ index k := by
        obtain ⟨w, hw, hhas⟩ := h.lookup_spec hhash hk
        rw [hlookup] at hw
        cases hw
        obtain ⟨-, ⟨hin', -⟩ | ⟨p, hp, hpk, -⟩⟩ := (hhas v).mpr ⟨rfl, hv⟩
        · exact absurd hin' hin
        · have hidx : index p.1 = index k := by rw [index, index, arrayindex_congr hpk]
          have hle := hfar p hp
          rw [hg.sizearray]
          omega
      have hany : luaHGetany hash t1 k = luaHGetany hash t k := by
        simp only [luaHGetany, chainFind, mainposition, sizenode, hg.node, hg.lsizenode]
      rw [lookup, luaHGet_chain hhash hk hout1, hany]
      rw [lookup, luaHGet_chain hhash hk hout] at hlookup
      rw [← hlookup, luaHGetany, chainFind]
      cases find (fun i => (t.node i).next) (fun i => luaORawequalObj (t.node i).key k) t.sizenode
        (mainposition hash t k) with
      | none => rfl
      | some i =>
        change Except.ok (t1.node i).val = Except.ok (t.node i).val
        rw [hg.node]

/-- An element of the vanishing slice that cannot be put back is lost. -/
theorem shrink_loses (h : Inv hash t) (hhash : Consistent hash)
    (hspares : ∀ key : TValue N, key ≠ .nil → Spares newkey key) (hg : Grown t t1 nasize)
    (harray : t2.array = t1.array) (hnode : ∀ i, t2.node i = emptyNode)
    (hrun : shrinkArray hash newkey nasize t.sizearray t2 = .error (.raised r t')) :
    ¬ Keeps hash t t' := by
  have hsize := h.sizearray
  unfold shrinkArray at hrun
  split_ifs at hrun with hlt
  rcases bind_raised hrun with hloop | ⟨t3, -, hrest⟩
  · obtain ⟨pre, i, post, tm, hsplit, hpre, hval, hset⟩ := reinsertArray_stops hloop
    have hmem : ∀ j ∈ pre ++ i :: post, nasize ≤ j ∧ j < t.sizearray := by
      intro j hj
      rw [← hsplit] at hj
      obtain ⟨hle, hj⟩ := List.mem_range'_1.mp hj
      exact ⟨hle, by omega⟩
    obtain ⟨hle, hi⟩ := hmem i (List.mem_append_right _ List.mem_cons_self)
    have hnodup : (pre ++ i :: post).Nodup := hsplit ▸ List.nodup_range'
    have hnot : i ∉ pre := fun hmem =>
      (List.nodup_append.mp hnodup).2.2 i hmem i List.mem_cons_self rfl
    have hidx : index (.number (castNum (BitVec.ofNat 32 (i + 1))) : TValue N) = i :=
      index_castNum (by omega)
    generalize hk : (.number (castNum (BitVec.ofNat 32 (i + 1))) : TValue N) = key at hidx hset
    have hkey : key ≠ .nil := by
      rw [← hk]
      exact (proper_castNum _).1
    have hstart : ∀ b, (i < b → t.array i = .nil) →
        Without key b { t2 with sizearray := nasize } := by
      intro b hb
      refine without_of_emptied hkey hnode (fun hin => ?_) (fun hin => ?_) (Nat.lt_trans hlt hsize)
      · have hin : index key < nasize := hin
        omega
      · rw [hidx] at hin ⊢
        exact (congrFun harray i).trans ((hg.array i hi).trans (hb hin))
    have hbefore : ∀ b, (i < b → t.array i = .nil) → Without key b tm := by
      intro b hb
      have hleaves := (hstart b hb).reinsertArray (hspares key hkey) hhash pre fun j hj => by
        obtain ⟨-, hjlt⟩ := hmem j (List.mem_append_left _ hj)
        refine ⟨by omega, fun hji => absurd hj ?_⟩
        rw [hji, hidx]
        exact hnot
      rw [hpre] at hleaves
      cases hleaves with
      | ok h' => exact h'
    -- the element has a value from the start: otherwise it would have none by now
    have hsome : t.array i ≠ .nil := by
      intro hnil
      have hnow := (hbefore (i + 1) fun _ => hnil).array (by omega)
      rw [hidx] at hnow
      exact hval hnow
    have hlost : Without key 0 t' := by
      have hleaves := (hspares key hkey).setWith hhash 0 tm key
        (hbefore 0 fun hlt => absurd hlt (Nat.not_lt_zero i))
      rw [hset] at hleaves
      cases hleaves with
      | raised h' => exact h'
    intro hkeeps
    refine hlost.lookup_ne hhash hkey hsome (hkeeps key _ hsome ?_)
    rw [lookup, luaHGet_array hsize (by omega), hidx]
    exact if_pos (Nat.lt_of_lt_of_le hi h.memory)
  · cases hrest

/-- An element of the hash part that cannot be put back is lost. -/
theorem nodes_loses (h : Inv hash t) (hhash : Consistent hash)
    (hspares : ∀ key : TValue N, key ≠ .nil → Spares newkey key) (hg : Grown t t1 nasize)
    (hnasize : nasize < 2 ^ 31) (harray : t2.array = t1.array) (hsize2 : t2.sizearray = t1.sizearray)
    (hnode : ∀ i, t2.node i = emptyNode) {t3 : Table N}
    (hshrink : shrinkArray hash newkey nasize t.sizearray t2 = .ok t3)
    (hrun : reinsertNodes hash newkey t.node (List.range (2 ^ t.lsizenode)).reverse t3 =
      .error (.raised r t')) : ¬ Keeps hash t t' := by
  have hsize := h.sizearray
  obtain ⟨pre, i, post, tm, hsplit, hpre, hval, hset⟩ := reinsertNodes_stops hrun
  have hpair : t.pairAt i = some ((t.node i).key, (t.node i).val) :=
    pairAt_eq_some.mpr ⟨rfl, rfl, hval⟩
  have hk := h.keyAt_of_pair hpair
  have hproper := h.proper i _ hk
  have hout : t.sizearray ≤ index (t.node i).key := h.ints i _ hk
  have hnodup : (pre ++ i :: post).Nodup := hsplit ▸ List.nodup_reverse.mpr List.nodup_range
  have hother : ∀ j ∈ pre, (t.node j).val.isNil = false →
      luaORawequalObj (t.node j).key (t.node i).key = false := by
    intro j hj hjval
    by_contra hequal
    rw [Bool.not_eq_false] at hequal
    have hjne : (t.node j).val ≠ .nil := by
      intro hnil
      rw [hnil] at hjval
      cases hjval
    have hjk := h.keyAt_of_pair (pairAt_eq_some.mpr ⟨rfl, rfl, hjne⟩ :
      t.pairAt j = some ((t.node j).key, (t.node j).val))
    have hji := h.keys j i _ _ hjk hk hequal
    exact (List.nodup_append.mp hnodup).2.2 j hj i List.mem_cons_self hji
  have hstart : Without (t.node i).key 0 t2 := by
    refine without_of_emptied hproper.1 hnode (fun hin => ?_) (fun hin => ?_) ?_
    · rw [hsize2, hg.sizearray] at hin
      rw [harray]
      exact hg.new _ hout (by omega)
    · exact absurd hin (Nat.not_lt_zero _)
    · rw [hsize2, hg.sizearray]
      omega
  have hspare := hspares (t.node i).key hproper.1
  have hafter : Without (t.node i).key 0 t3 := by
    have hleaves := hstart.shrinkArray hspare hhash (hsize2.trans hg.sizearray)
      fun j _ hj hji => absurd hout (by omega)
    rw [hshrink] at hleaves
    cases hleaves with
    | ok h' => exact h'
  have hbefore : Without (t.node i).key 0 tm := by
    have hleaves := hafter.reinsertNodes hspare hhash pre hother
    rw [hpre] at hleaves
    cases hleaves with
    | ok h' => exact h'
  have hlost : Without (t.node i).key 0 t' := by
    have hleaves := hspare.setWith hhash 0 tm (t.node i).key hbefore
    rw [hset] at hleaves
    cases hleaves with
    | raised h' => exact h'
  intro hkeeps
  refine hlost.lookup_ne hhash hproper.1 hval (hkeeps _ _ hval ?_)
  rw [lookup, h.get_node hhash hk hproper.2]
  rfl

/-- Which of the requests `resize` may stop at without a loss. -/
theorem resize_keeps (h : Inv hash t) (hhash : Consistent hash)
    (hspares : ∀ key : TValue N, key ≠ .nil → Spares newkey key)
    (hasks : ∀ t k, Asks (fun r => path.length < r.path.length) (newkey t k))
    (ht0 : t0 = { t with lastfree := l }) (hnasize : nasize < 2 ^ 31)
    (hrun : resize granted path hash newkey t0 nasize nhsize = .error (.raised r t')) :
    Keeps hash t t' ↔ r.path = path ∧ (r.site = .array ∨ ∀ p ∈ t.live, nasize ≤ index p.1) := by
  have hnested : path.length < r.path.length → ¬ Keeps hash t t' →
      (Keeps hash t t' ↔ r.path = path ∧ (r.site = .array ∨ ∀ p ∈ t.live, nasize ≤ index p.1)) := by
    intro hlt hloses
    refine ⟨fun hkeeps => absurd hkeeps hloses, fun hc => ?_⟩
    rw [hc.1] at hlt
    exact absurd hlt (Nat.lt_irrefl _)
  have hsize0 : t0.sizearray = t.sizearray := by rw [ht0]
  have hnode0 : t0.node = t.node ∧ t0.lsizenode = t.lsizenode := by
    rw [ht0]
    exact ⟨rfl, rfl⟩
  unfold resize at hrun
  dsimp only at hrun
  rcases bind_raised hrun with hstop | ⟨t1, hgrow, hrun⟩
  · -- the array cannot grow
    unfold growArray setarrayvector at hstop
    split_ifs at hstop
    cases hstop
    refine ⟨fun _ => ⟨rfl, .inl rfl⟩, fun _ k v _ hlookup => ?_⟩
    rw [ht0]
    exact hlookup
  · have hg := growArray_grown h ht0 hgrow
    rcases bind_raised hrun with hstop | ⟨t2, hempty, hrun⟩
    · -- there is no new node vector
      have hr : r = ⟨path, .nodes⟩ ∧ t' = t1 := by
        unfold setnodevector at hstop
        dsimp only at hstop
        split_ifs at hstop <;> cases hstop <;> exact ⟨rfl, rfl⟩
      obtain ⟨rfl, rfl⟩ := hr
      rw [grown_keeps h hhash hg hnasize]
      simp
    · obtain ⟨harray, hsize2, hnode⟩ := setnodevector_emptied hempty
      rcases bind_raised hrun with hstop | ⟨t3, hshrink, hrun⟩
      · refine hnested (asks_shrinkArray hasks _ _ _ r t' hstop) ?_
        rw [hsize0] at hstop
        exact shrink_loses h hhash hspares hg harray hnode hstop
      · refine hnested (asks_reinsertNodes hasks _ _ _ r t' hrun) ?_
        rw [hsize0] at hshrink
        rw [hnode0.1, hnode0.2] at hrun
        exact nodes_loses h hhash hspares hg hnasize harray hsize2 hnode hshrink hrun

end Resize

theorem rehash_eq [LuaNumber N] (granted : Allocator N) (path : List (TValue N))
    (hash : TValue N → Nat) (newkey : Newkey N) (t : Table N) (ek : TValue N) :
    rehash granted path hash newkey t ek =
      resize granted path hash newkey t (rehashSizes t ek).1 (rehashSizes t ek).2 := rfl

/-- A table that cannot grow or shrink still has all its values only where the request that is refused is
for the array, or is for the node vector while no key of the hash part is to go into the array. -/
theorem raised_keeps_iff [LuaNumber N] [LawfulNumber N] {hash : TValue N → Nat}
    (hhash : Consistent hash) {depth : Nat} (hdepth : 3 ≤ depth) {t : Table N}
    {m : TValue N → TValue N} (h : Stores hash depth t m) (granted : Allocator N)
    (path : List (TValue N)) (d l : Nat) (r : Request N) (t' : Table N) :
    (∀ ek, rehash granted path hash (newkeyAt granted hash d path) { t with lastfree := l } ek =
        .error (.raised r t') →
      (Keeps hash t t' ↔ r.path = path ∧
        (r.site = .array ∨ ∀ p ∈ t.live, (rehashSizes { t with lastfree := l } ek).1 ≤ index p.1))) ∧
    ∀ nasize, nasize < 2 ^ 31 → luaHResizearray granted hash d t nasize = .error (.raised r t') →
      (Keeps hash t t' ↔ r.path = [] ∧ (r.site = .array ∨ ∀ p ∈ t.live, nasize ≤ index p.1)) := by
  have hinv := (h.holds hhash hdepth).1
  have hspares : ∀ (path : List (TValue N)) (key : TValue N), key ≠ .nil →
      Spares (newkeyAt granted hash d path) key := fun path key hkey =>
    newkeyAt_spares hhash hkey d path
  refine ⟨fun ek hrun => ?_, fun nasize hnasize hrun => ?_⟩
  · rw [rehash_eq] at hrun
    exact resize_keeps hinv hhash (hspares path) (asks_newkeyAt d path) rfl
      (Nat.lt_of_le_of_lt (rehashSizes_spec _ ek).1 (by decide)) hrun
  · exact resize_keeps (l := t.lastfree) hinv hhash (hspares []) (asks_newkeyAt d []) rfl hnasize hrun

/-- A table with the key 2 and a string in its hash part, as the stores make it. -/
theorem twoKeys_stores : ∃ (t : Table Int) (m : TValue Int → TValue Int),
    Stores (fun _ => 0) 3 t m ∧
    (∃ t', luaHSet (fun _ site => site == .array) (fun _ => 0) 3 t (.number (castNum 1)) =
        .error (.raised ⟨[.number (castNum 1)], .nodes⟩ t') ∧
      rehash (fun _ site => site == .array) [.number (castNum 1)] (fun _ => 0)
          (newkeyAt (fun _ site => site == .array) (fun _ => 0) 2 [.number (castNum 1)])
          { t with lastfree := 0 } (.number (castNum 1)) =
        .error (.raised ⟨[.number (castNum 1)], .nodes⟩ t') ∧
      lookup (fun _ => 0) t' (.number (castNum 2)) = .ok .nil) ∧
    lookup (fun _ => 0) t (.number (castNum 2)) = .ok (.boolean true) := by
  obtain ⟨t0, t1, t2, t3, t, hnew, hset, hwrite, hset', hwrite', hstop, hrehash, hlost, hfound⟩ :
      ∃ t0 t1 t2 t3 t : Table Int, luaHNew 0 2 = .ok t0 ∧
      luaHSetnum (fun _ => 0) 3 t0 2 = .ok (.node 0, t1) ∧
      t1.write (.boolean true) (.node 0) = .ok t2 ∧
      Ltable.luaHSet (fun _ => 0) 3 t2 (.string [120]) = .ok (.node 1, t3) ∧
      t3.write (.boolean true) (.node 1) = .ok t ∧
      luaHSet (fun _ site => site == .array) (fun _ => 0) 3 t (.number (castNum 1)) =
        .error (.raised ⟨[.number (castNum 1)], .nodes⟩
          (Ltable.setarrayvector 2 { t with lastfree := 0 })) ∧
      rehash (fun _ site => site == .array) [.number (castNum 1)] (fun _ => 0)
          (newkeyAt (fun _ site => site == .array) (fun _ => 0) 2 [.number (castNum 1)])
          { t with lastfree := 0 } (.number (castNum 1)) =
        .error (.raised ⟨[.number (castNum 1)], .nodes⟩
          (Ltable.setarrayvector 2 { t with lastfree := 0 })) ∧
      lookup (fun _ => 0) (Ltable.setarrayvector 2 { t with lastfree := 0 }) (.number (castNum 2)) =
        .ok .nil ∧
      lookup (fun _ => 0) t (.number (castNum 2)) = .ok (.boolean true) :=
    ⟨_, _, _, _, _, rfl, rfl, rfl, rfl, rfl, rfl, rfl, rfl, rfl⟩
  exact ⟨t, _, .set _ (.setnum _ (.new (by decide) hnew) hset hwrite) hset' hwrite',
    ⟨_, hstop, hrehash, hlost⟩, hfound⟩

theorem raised_keeps_twoKeys : ∃ (t t' : Table Int) (m : TValue Int → TValue Int),
    Stores (fun _ => 0) 3 t m ∧
    (Keeps (fun _ => 0) t t' ↔
      ([.number (castNum 1)] : List (TValue Int)) = [.number (castNum 1)] ∧ (Site.nodes = .array ∨
        ∀ p ∈ t.live, (rehashSizes { t with lastfree := 0 } (.number (castNum 1))).1 ≤ index p.1)) := by
  obtain ⟨t, m, hstores, ⟨t', -, hrehash, -⟩, -⟩ := twoKeys_stores
  exact ⟨t, t', m, hstores, (raised_keeps_iff (fun _ _ _ => rfl) (by decide) hstores
    (fun _ site => site == .array) [.number (castNum 1)] 2 0 _ t').1 _ hrehash⟩

/-- Without memory for the new node vector a key that was to go into the array is lost. -/
theorem luaHSet_loses : ∃ (t t' : Table Int) (m : TValue Int → TValue Int) (r : Request Int),
    Stores (fun _ => 0) 3 t m ∧
    luaHSet (fun _ site => site == .array) (fun _ => 0) 3 t (.number (castNum 1)) =
      .error (.raised r t') ∧
    lookup (fun _ => 0) t (.number (castNum 2)) = .ok (.boolean true) ∧
    lookup (fun _ => 0) t' (.number (castNum 2)) = .ok .nil ∧ ¬ Keeps (fun _ => 0) t t' := by
  obtain ⟨t, m, hstores, ⟨t', hstop, -, hlost⟩, hfound⟩ := twoKeys_stores
  refine ⟨t, t', m, _, hstores, hstop, hfound, hlost, fun hkeeps => ?_⟩
  have hkept := hkeeps (.number (castNum 2)) (.boolean true) (by simp) hfound
  rw [hlost] at hkept
  cases hkept

end UgmeeLua.Ltable.Refusal

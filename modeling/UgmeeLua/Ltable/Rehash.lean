import UgmeeLua.Ltable.Counts

namespace UgmeeLua.Ltable

open Scatter Ltable.Table

variable {N : Type} [LuaNumber N]

section Room

variable {hash : TValue N → Nat} {t : Table N} {key ek : TValue N} {nasize : Nat}

theorem arrayPair_isSome (array : Nat → TValue N) (i : Nat) :
    (arrayPair array i).isSome = !(array i).isNil := by
  unfold arrayPair
  cases (array i).isNil <;> rfl

theorem vanishing_length (t : Table N) (nasize : Nat) :
    filled t.array (min nasize t.sizearray) + (vanishing t nasize).length =
      filled t.array t.sizearray := by
  have hlength : (vanishing t nasize).length =
      (List.range' nasize (t.sizearray - nasize)).countP fun i => !(t.array i).isNil := by
    rw [vanishing, List.length_filterMap_eq_countP]
    simp only [arrayPair_isSome]
  rw [hlength]
  rcases Nat.le_total nasize t.sizearray with h | h
  · rw [Nat.min_eq_left h]
    exact filled_slice t.array h
  · rw [Nat.min_eq_right h, Nat.sub_eq_zero_of_le h]
    rfl

theorem nodes_beyond (t : Table N) (nasize : Nat) :
    nodeCount t nasize + ((nodes t).filter (beyond nasize)).length = t.live.length := by
  have hbeyond : beyond nasize = fun p : TValue N × TValue N =>
      decide (¬ decide (index p.1 < nasize) = true) := by
    funext p
    simp only [beyond, decide_eq_true_eq, Nat.not_lt]
  rw [nodeCount, ← (nodes_perm t).countP_eq, ← (nodes_perm t).length_eq, hbeyond,
    ← List.countP_eq_length_filter]
  exact (List.length_eq_countP_add_countP _).symm

/-- What a rehash has to put into the new node vector. -/
theorem rehash_room (hsize : t.sizearray ≤ MAXASIZE) (ek : TValue N) :
    ((vanishing t (rehashSizes t ek).1 ++ nodes t).filter (beyond (rehashSizes t ek).1)).length +
      (if index ek < (rehashSizes t ek).1 then 0 else 1) ≤ (rehashSizes t ek).2 := by
  obtain ⟨-, hsizes⟩ := rehashSizes_spec t ek
  generalize (rehashSizes t ek).1 = n at hsizes
  have harray := vanishing_length t n
  have hnodes := nodes_beyond t n
  have hfilter : ((vanishing t n).filter (beyond n)).length ≤ (vanishing t n).length :=
    List.length_filter_le _ _
  rw [hsizes, Nat.min_eq_right hsize, total, List.filter_append, List.length_append]
  split_ifs <;> omega

variable [LawfulNumber N]

/-- A rehash leaves a table with room for the extra key. -/
theorem Elements.rehash_small (h : Elements t) (hhash : Consistent hash) (newkey : Newkey N)
    (hsize : t.sizearray ≤ MAXASIZE) (ek : TValue N) :
    Yields (fun t' => Resized hash t t' (rehashSizes t ek).1 ∧
        (t'.sizearray ≤ index ek → t'.live.length < capacity t'))
      (rehash hash (newkeyStep hash newkey) t ek) := by
  have hroom := rehash_room hsize ek
  obtain ⟨hmax, -⟩ := rehashSizes_spec t ek
  have hlt : (rehashSizes t ek).1 < 2 ^ 31 := Nat.lt_of_le_of_lt hmax (by decide)
  have hfit : ((vanishing t (rehashSizes t ek).1 ++ nodes t).filter
      (beyond (rehashSizes t ek).1)).length ≤ (rehashSizes t ek).2 := by omega
  have hresize := h.resize_room hhash newkey hlt hfit
  refine hresize.mono fun t' h' => ⟨h'.1, fun hout => ?_⟩
  obtain ⟨hres, hcap⟩ := h'
  rw [hres.sizearray] at hout
  rw [if_neg (Nat.not_lt.mpr hout)] at hroom
  rw [hres.live.length_eq]
  omega

end Room

/-- Where `luaH_set` leads: to the place of the key, with the values of the table as they were. -/
structure Placed (hash : TValue N → Nat) (t : Table N) (key : TValue N) (r : Slot × Table N) :
    Prop where
  inv : Inv hash r.2
  kept : Kept r.2 key (some r.1)
  has : ∀ k w, Has r.2 k w ↔ Has t k w

section Store

variable {hash : TValue N → Nat} {t t' : Table N} {key : TValue N} {i : Nat}

theorem SameParts.has (h : SameParts t t') (hlive : t'.live.Perm t.live) (k w : TValue N) :
    Has t' k w ↔ Has t k w := by
  simp only [Has, h.sizearray, h.array, hlive.mem_iff]

theorem Inserted.placed (h : Inserted hash t t' key i) (hfresh : Fresh t key) :
    Placed hash t key (.node i, t') := by
  refine ⟨h.inv, .node ?_ h.key hfresh.proper.2, h.same.has h.live⟩
  rw [h.same.sizearray]
  exact hfresh.out

/-- Without a free position the search for one changes nothing else. -/
theorem Sound.noFreepos (h : Sound hash t) (hfree : (getfreepos t t.lastfree).1 = none) :
    Sound hash { t with lastfree := 0 } := by
  refine ⟨h.scattered, fun hd => ⟨(h.dummy hd).1, rfl, (h.dummy hd).2.2⟩, h.free, h.proper,
    h.ints, fun hd i _ hlt => ?_, Nat.zero_le _, h.memory, h.sizearray⟩
  have hd : t.isDummy = false := hd
  rcases getfreepos_spec t t.lastfree with ⟨n, -, hsome, -⟩ | ⟨-, hused⟩
  · rw [hsome] at hfree
    cases hfree
  · by_cases hil : i < t.lastfree
    · exact hused i hil
    · exact h.lastfree hd i (Nat.le_of_not_lt hil) hlt

theorem Placed.trans {r : Slot × Table N} (h : Placed hash t' key r)
    (hhas : ∀ k w, Has t' k w ↔ Has t k w) : Placed hash t key r :=
  ⟨h.inv, h.kept, fun k w => (h.has k w).trans (hhas k w)⟩

theorem Fresh.not_has (hfresh : Fresh t key) (h : Inv hash t) (w : TValue N) : ¬ Has t key w := by
  intro hw
  rcases hw.2 with ⟨hin, -⟩ | ⟨p, hp, hpk, -⟩
  · have hout := hfresh.out
    omega
  · obtain ⟨i, -, hi⟩ := mem_contents.mp hp
    rw [hfresh.none i p.1 (h.keyAt_of_pair hi)] at hpk
    cases hpk

/-- `newkey`, where it has to rehash. -/
theorem Sound.newkey_rehash (h : Sound hash t) (hplace : ¬ HasPlace hash t key) (newkey : Newkey N) :
    Sound hash { t with lastfree := 0 } ∧ newkeyStep hash newkey t key =
      (rehash hash newkey { t with lastfree := 0 } key >>= fun t => setWith hash newkey t key) := by
  have hfree : getfreepos t t.lastfree = (none, 0) := by
    rcases getfreepos_spec t t.lastfree with ⟨n, hn, hfree, -, -⟩ | ⟨hfree, -⟩
    · have hdummy : t.isDummy = false := by
        by_contra hd
        rw [Bool.not_eq_false] at hd
        rw [(h.dummy hd).2.1] at hn
        exact Nat.not_lt_zero n hn
      exact absurd ⟨hdummy, .inr ⟨n, by rw [hfree]⟩⟩ hplace
    · exact hfree
  refine ⟨h.noFreepos (by rw [hfree]), ?_⟩
  have hbranch : (!(t.node (mainposition hash t key)).val.isNil || t.isDummy) = true := by
    by_contra hno
    simp only [Bool.or_eq_true, Bool.not_eq_true', not_or, Bool.not_eq_false, Bool.not_eq_true]
      at hno
    exact hplace ⟨hno.2, .inl ((TValue.isNil_iff _).mp hno.1)⟩
  simp only [newkeyStep, hbranch, if_true, hfree]

theorem Inv.newkey_rehash (h : Inv hash t) (hplace : ¬ HasPlace hash t key) (newkey : Newkey N) :
    Inv hash { t with lastfree := 0 } ∧ newkeyStep hash newkey t key =
      (rehash hash newkey { t with lastfree := 0 } key >>= fun t => setWith hash newkey t key) := by
  obtain ⟨hsound, heq⟩ := h.sound.newkey_rehash hplace newkey
  exact ⟨hsound.inv h.keys, heq⟩

variable [LawfulNumber N]

/-- `luaH_set` after a rehash that has left room for the key. -/
theorem Inv.set_roomy (h : Inv hash t) (hhash : Consistent hash) (hpacked : Packed t)
    (hkey : Proper key) (hnone : ∀ w, ¬ Has t key w)
    (hroom : t.sizearray ≤ index key → t.live.length < capacity t) (newkey : Newkey N) :
    ∃ r, setWith hash (newkeyStep hash newkey) t key = .ok r ∧ Placed hash t key r := by
  by_cases hin : index key < t.sizearray
  · refine ⟨(.array (index key), t), ?_, h, .array hin, fun _ _ => Iff.rfl⟩
    simp only [setWith, luaHGet_array h.sizearray hin]
  · have hout := Nat.le_of_not_lt hin
    have hfresh := fresh_of_none hpacked h hkey hout hnone
    obtain ⟨i, t1, hnew, hins⟩ := h.newkey_inserted hfresh (h.hasPlace hpacked (hroom hout)) newkey
    refine ⟨(.node i, t1), ?_, hins.placed hfresh⟩
    rw [setWith_none _ hkey (get_of_fresh hfresh hhash), hnew]

/-- A rehash of a table whose array is no larger than can be counted, and `luaH_set` after it. -/
theorem Elements.small_placed (h : Elements t) (hhash : Consistent hash) (hkey : Proper key)
    (hnone : ∀ w, ¬ Has t key w) (hsize : t.sizearray ≤ MAXASIZE) (newkey : Newkey N) :
    Yields (Placed hash t key) (rehash hash (newkeyStep hash newkey) t key >>= fun t =>
      setWith hash (newkeyStep hash newkey) t key) := by
  refine (h.rehash_small hhash newkey hsize key).bind fun t1 h1 => ?_
  obtain ⟨hres, hroom⟩ := h1
  have hnone1 : ∀ w, ¬ Has t1 key w := fun w hw => hnone w ((hres.has key w).mp hw)
  obtain ⟨r, hset, hplaced⟩ := hres.inv.set_roomy hhash hres.packed hkey hnone1 hroom newkey
  rw [hset]
  exact .ok (hplaced.trans hres.has)

/-- `newkey` for a table whose array is no larger than can be counted. -/
theorem Inv.newkey_small (h : Inv hash t) (hhash : Consistent hash) (hfresh : Fresh t key)
    (hsize : t.sizearray ≤ MAXASIZE) (newkey : Newkey N) :
    Yields (Placed hash t key) (newkeyStep hash (newkeyStep hash newkey) t key) := by
  by_cases hplace : HasPlace hash t key
  · obtain ⟨i, t', hnew, hins⟩ := h.newkey_inserted hfresh hplace (newkeyStep hash newkey)
    rw [hnew]
    exact .ok (hins.placed hfresh)
  · obtain ⟨hinv, heq⟩ := h.newkey_rehash hplace (newkeyStep hash newkey)
    have hnone : ∀ w, ¬ Has t key w := hfresh.not_has h
    have hplaced := hinv.elements.small_placed hhash hfresh.proper hnone hsize newkey
    rw [heq]
    exact hplaced.mono fun r hr => hr.trans fun _ _ => Iff.rfl

end Store

end UgmeeLua.Ltable

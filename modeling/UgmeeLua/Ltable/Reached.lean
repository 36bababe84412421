import UgmeeLua.Ltable.Aged
import UgmeeLua.Ltable.Refused

namespace UgmeeLua.Ltable

open Scatter Ltable.Table LawfulNumber

variable {N : Type}

/-! ## Operations that stop before the array has grown -/

namespace Refusal

section Unchanged

variable [LuaNumber N] {hash : TValue N → Nat} {newkey : Newkey N} {granted : Allocator N}
  {path : List (TValue N)} {r : Request N} {t t' : Table N} {nasize nhsize depth : Nat}
  {key : TValue N}

variable [LawfulNumber N]

/-- `resize` has not changed a table that it leaves with the array of before. -/
theorem resize_unchanged (hasks : ∀ t k, Asks (fun r => path.length < r.path.length) (newkey t k))
    (hrun : resize granted path hash newkey t nasize nhsize = .error (.raised r t'))
    (hown : r.path = path) (hsize : t'.sizearray = t.sizearray) : t' = t := by
  have hnested : ¬ path.length < r.path.length := by
    rw [hown]
    exact Nat.lt_irrefl _
  unfold resize at hrun
  dsimp only at hrun
  rcases bind_raised hrun with hstop | ⟨t1, hgrow, hrun⟩
  · unfold growArray setarrayvector at hstop
    split_ifs at hstop
    cases hstop
    rfl
  · rcases bind_raised hrun with hstop | ⟨t2, -, hrun⟩
    · have ht1 : t' = t1 := by
        unfold setnodevector at hstop
        dsimp only at hstop
        split_ifs at hstop <;> cases hstop <;> rfl
      unfold growArray setarrayvector at hgrow
      split_ifs at hgrow with hlt
      · cases hgrow
        rw [ht1] at hsize
        exact absurd hsize (Nat.ne_of_gt hlt)
      · cases hgrow
        exact ht1
    · rcases bind_raised hrun with hstop | ⟨t3, -, hrun⟩
      · exact absurd (asks_shrinkArray hasks _ _ _ r t' hstop) hnested
      · exact absurd (asks_reinsertNodes hasks _ _ _ r t' hrun) hnested

/-- The same of `newkey`. -/
theorem newkeyAt_unchanged (hrun : newkeyAt granted hash depth [] t key = .error (.raised r t'))
    (hown : r.path = [key]) (hsize : t'.sizearray = t.sizearray) :
    getfreepos t t.lastfree = (none, 0) ∧ t' = { t with lastfree := 0 } := by
  cases depth with
  | zero => cases hrun
  | succ depth =>
    have hasks : ∀ t k, Asks (fun r => [key].length < r.path.length)
        (newkeyAt granted hash depth [key] t k) := asks_newkeyAt depth [key]
    unfold newkeyAt newkeyStep at hrun
    dsimp only at hrun
    split_ifs at hrun
    rcases getfreepos_spec t t.lastfree with ⟨n, -, hfree, -⟩ | ⟨hfree, -⟩
    · rw [hfree] at hrun
      dsimp only at hrun
      split_ifs at hrun
    · rw [hfree] at hrun
      refine ⟨hfree, ?_⟩
      rcases bind_raised hrun with hstop | ⟨t1, -, hset⟩
      · exact resize_unchanged hasks hstop hown hsize
      · have hlt : [key].length < r.path.length := asks_setWith hasks t1 key r t' hset
        rw [hown] at hlt
        exact absurd hlt (Nat.lt_irrefl _)

end Unchanged

end Refusal

namespace Aged

variable [LuaNumber N] [LawfulNumber N] {hash : TValue N → Nat} {gcvalue : Gcvalue N} {a : Aged N}
  {t : Table N} {key : TValue N} {depth : Nat}

/-! ## Stores -/

section Stores

omit [LawfulNumber N] in
/-- `newkey` has neither a free node nor a position with no value for the key. -/
theorem full_iff (h : Sound hash t) (key : TValue N) :
    ((!(t.node (mainposition hash t key)).val.isNil || t.isDummy) &&
      (getfreepos t t.lastfree).1.isNone) = true ↔ ¬ HasPlace hash t key := by
  have hdummy : t.isDummy = true → getfreepos t t.lastfree = (none, 0) := by
    intro hd
    rw [(h.dummy hd).2.1]
    rfl
  unfold HasPlace
  cases hd : t.isDummy with
  | true =>
    rw [hdummy hd]
    simp
  | false =>
    simp only [Bool.or_false, Bool.and_eq_true, Bool.not_eq_true', Option.isNone_iff_eq_none, true_and,
      not_or, not_exists, ← TValue.isNil_iff, Bool.not_eq_true, Option.eq_none_iff_forall_ne_some]

omit [LawfulNumber N] in
theorem newkey_eq (a : Aged N) (key : TValue N) {full : Bool}
    (hfull : ((!(a.table.node (mainposition hash a.table key)).val.isNil || a.table.isDummy) &&
      (getfreepos a.table a.table.lastfree).1.isNone) = full) :
    a.newkey hash depth key = Ltable.newkey hash depth a.table key >>= fun r =>
      .ok (r.1, ⟨r.2, fun i => if full || r.1 = .node i then none else a.dead i⟩) := by
  subst hfull
  rfl

omit [LuaNumber N] [LawfulNumber N] in
theorem seen_alive (t : Table N) : (⟨t, fun _ => none⟩ : Aged N).seen = t := rfl

omit [LawfulNumber N] in
theorem Valid.noFreepos (h : Valid hash gcvalue a)
    (hfree : getfreepos a.table a.table.lastfree = (none, 0)) :
    Valid hash gcvalue ⟨{ a.table with lastfree := 0 }, a.dead⟩ :=
  ⟨h.sound.noFreepos (by rw [hfree]), h.dead, h.located, h.apart⟩

/-- What a store finds: a place for its key, in a table that is as it should be. -/
structure Settled (hash : TValue N → Nat) (gcvalue : Gcvalue N) (key : TValue N) (r : Slot × Aged N) :
    Prop where
  valid : Valid hash gcvalue r.2
  kept : Kept r.2.seen key (some r.1)

theorem Valid.newkey (h : Valid hash gcvalue a) (hhash : Consistent hash) (hkey : Proper key)
    (hget : luaHGet hash a.seen key = none) (hdepth : 3 ≤ depth) :
    Yields (Settled hash gcvalue key) (a.newkey hash depth key) := by
  obtain ⟨d, rfl⟩ : ∃ d, depth = d + 3 := ⟨depth - 3, by omega⟩
  have hkept := h.get_kept hhash hkey.1
  rw [hget] at hkept
  cases hkept with
  | none hout hnone =>
    have hout : a.table.sizearray ≤ index key := hout
    by_cases hplace : HasPlace hash a.table key
    · obtain ⟨i, t', origin, hnew, hfit⟩ := h.sound.newkey_fitted hkey hout hplace
        (Ltable.newkey hash (d + 2))
      have hfull := Bool.eq_false_iff.mpr fun hf => (full_iff h.sound key).mp hf hplace
      have hnew : Ltable.newkey hash (d + 3) a.table key = .ok (.node i, t') := hnew
      rw [newkey_eq a key hfull, hnew]
      have hdead : ∀ j, (if false || Slot.node i = .node j then none else a.dead j) =
          if j = i then none else a.dead j := by
        intro j
        by_cases hj : j = i
        · simp [hj]
        · simp [hj, Ne.symm hj]
      have hvalid := h.fitted hkey hnone hfit hdead
      refine .ok ⟨hvalid, .node ?_ (seen_keyAt.mpr ⟨hfit.refilled.keyAt_self hkey.1, ?_⟩) hkey.2⟩
      · change t'.sizearray ≤ index key
        rw [hfit.same.sizearray]
        exact hout
      · simp
    · obtain ⟨hsound, heq⟩ := h.sound.newkey_rehash hplace (Ltable.newkey hash (d + 2))
      have heq : Ltable.newkey hash (d + 3) a.table key = _ := heq
      have hvalid : Valid hash gcvalue ⟨{ a.table with lastfree := 0 }, a.dead⟩ :=
        ⟨hsound, h.dead, h.located, h.apart⟩
      have hnone : ∀ w, ¬ Has { a.table with lastfree := 0 } key w := by
        intro w hw
        obtain ⟨-, ⟨hin, -⟩ | ⟨p, hp, hpk, -⟩⟩ := hw
        · exact absurd hin (Nat.not_lt.mpr hout)
        · obtain ⟨i, -, hi⟩ := mem_contents.mp hp
          have hfalse := hnone i p.1 (seen_of_pair h hi)
          rw [hpk] at hfalse
          cases hfalse
      have hplaced := (hvalid.elements hhash).rehash_placed hhash hkey hout hnone (Ltable.newkey hash d)
      rw [newkey_eq a key ((full_iff h.sound key).mpr hplace), heq]
      refine hplaced.bind fun r hr => .ok ⟨?_, ?_⟩
      · exact valid_of_inv hr.inv h.apart
      · exact hr.kept

/-- `luaH_set`. -/
theorem Valid.luaHSet (h : Valid hash gcvalue a) (hhash : Consistent hash) (hkey : Proper key)
    (hdepth : 3 ≤ depth) : Yields (Settled hash gcvalue key) (a.luaHSet hash depth key) := by
  have hkept := h.get_kept hhash hkey.1
  cases hget : luaHGet hash a.seen key with
  | some s =>
    rw [hget] at hkept
    simp only [Aged.luaHSet, hget]
    exact .ok ⟨h, hkept⟩
  | none =>
    have hnew := h.newkey hhash hkey hget hdepth
    simp only [Aged.luaHSet, hget]
    cases key with
    | nil => exact absurd rfl hkey.1
    | number n =>
      have hn : luaiNumisnan n = false := by
        have hself : luaiNumeq n n = true := hkey.2
        simp only [luaiNumisnan, hself, Bool.not_true]
      simp only [hn, Bool.false_eq_true, if_false]
      exact hnew
    | _ => exact hnew

theorem luaHSetnum_eq (a : Aged N) (key : BitVec 32) :
    a.luaHSetnum hash depth key = a.luaHSet hash depth (.number (castNum key)) := by
  have hn : luaiNumisnan (castNum key : N) = false := by
    have hself : luaiNumeq (castNum key : N) (castNum key) = true := (proper_castNum key).2
    simp only [luaiNumisnan, hself, Bool.not_true]
  simp only [Aged.luaHSetnum, Aged.luaHSet, luaHGetnum_eq, hn, Bool.false_eq_true, if_false]

omit [LawfulNumber N] in
theorem luaHSetstr_eq (a : Aged N) (key : Bytes) :
    a.luaHSetstr hash depth key = a.luaHSet hash depth (.string key) := rfl

theorem proper_of_set {r : Slot × Aged N} (hset : a.luaHSet hash depth key = .ok r) : Proper key := by
  by_contra h
  simp only [Aged.luaHSet, luaHGet_improper h] at hset
  rcases improper h with rfl | ⟨n, rfl, hn⟩
  · cases hset
  · have hnan : luaiNumisnan n = true := by simp only [luaiNumisnan, hn, Bool.not_false]
    simp only [hnan, if_true] at hset
    cases hset

/-- `luaH_set` and the store after it. -/
theorem Valid.set (h : Valid hash gcvalue a) (hhash : Consistent hash) (hdepth : 3 ≤ depth) {s : Slot}
    {a1 : Aged N} {v : TValue N} (hset : a.luaHSet hash depth key = .ok (s, a1))
    (hwrite : a1.table.write v s = .ok t) : Valid hash gcvalue ⟨t, a1.dead⟩ := by
  have hsettled := h.luaHSet hhash (proper_of_set hset) hdepth
  rw [hset] at hsettled
  cases hsettled with
  | ok hsettled => exact hsettled.valid.write hsettled.kept hwrite

end Stores

/-- The tables that stores, resizes and the collector come to, where no `resize` stops at an error after
it has made the array grow. -/
inductive Reached (hash : TValue N → Nat) (depth : Nat) : Gcvalue N → Aged N → Prop
  | new {gcvalue : Gcvalue N} {narray nhash : Nat} {t : Table N} (hapart : gcvalue.Apart)
      (hsize : narray < 2 ^ 31) (h : luaHNew narray nhash = .ok t) :
      Reached hash depth gcvalue ⟨t, fun _ => none⟩
  | set {gcvalue : Gcvalue N} {a a1 : Aged N} {t : Table N} {s : Slot} {key v : TValue N}
      (h : Reached hash depth gcvalue a) (hset : a.luaHSet hash depth key = .ok (s, a1))
      (hwrite : a1.table.write v s = .ok t) : Reached hash depth gcvalue ⟨t, a1.dead⟩
  | setnum {gcvalue : Gcvalue N} {a a1 : Aged N} {t : Table N} {s : Slot} {key : BitVec 32}
      {v : TValue N} (h : Reached hash depth gcvalue a)
      (hset : a.luaHSetnum hash depth key = .ok (s, a1)) (hwrite : a1.table.write v s = .ok t) :
      Reached hash depth gcvalue ⟨t, a1.dead⟩
  | setstr {gcvalue : Gcvalue N} {a a1 : Aged N} {t : Table N} {s : Slot} {key : Bytes} {v : TValue N}
      (h : Reached hash depth gcvalue a) (hset : a.luaHSetstr hash depth key = .ok (s, a1))
      (hwrite : a1.table.write v s = .ok t) : Reached hash depth gcvalue ⟨t, a1.dead⟩
  | resizearray {gcvalue : Gcvalue N} {a : Aged N} {t : Table N} {nasize : Nat}
      (h : Reached hash depth gcvalue a) (hsize : nasize < 2 ^ 31)
      (hroom : nasize < a.table.sizearray →
        (vanishing a.table nasize).length + a.table.live.length ≤ capacity a.table)
      (hresize : luaHResizearray hash depth a.table nasize = .ok t) :
      Reached hash depth gcvalue ⟨t, fun _ => none⟩
  | refused {gcvalue : Gcvalue N} {a : Aged N} {t : Table N} {key : TValue N}
      {granted : Refusal.Allocator N} {r : Refusal.Request N} (h : Reached hash depth gcvalue a)
      (hrun : Refusal.newkeyAt granted hash depth [] a.table key = .error (.raised r t))
      (hown : r.path = [key]) (hsize : t.sizearray = a.table.sizearray) :
      Reached hash depth gcvalue ⟨t, a.dead⟩
  | collect {gcvalue gcvalue' : Gcvalue N} {a a' : Aged N} (h : Reached hash depth gcvalue a)
      (hcollect : Collects .nil gcvalue a gcvalue' a') : Reached hash depth gcvalue' a'

/-- Every table reached is as it should be. -/
theorem Reached.valid (hhash : Consistent hash) (hdepth : 3 ≤ depth)
    (h : Reached hash depth gcvalue a) : Valid hash gcvalue a := by
  induction h with
  | new hapart hsize h => exact valid_of_inv (luaHNew_spec hsize h).1 hapart
  | set _ hset hwrite ih => exact ih.set hhash hdepth hset hwrite
  | setnum _ hset hwrite ih =>
    rw [luaHSetnum_eq] at hset
    exact ih.set hhash hdepth hset hwrite
  | setstr _ hset hwrite ih =>
    rw [luaHSetstr_eq] at hset
    exact ih.set hhash hdepth hset hwrite
  | resizearray _ hsize hroom hresize ih =>
    have hyields := (ih.elements hhash).resizearray hhash
      (Nat.le_trans (by decide) hdepth) hsize ih.sound.live_le hroom
    rw [hresize] at hyields
    cases hyields with
    | ok hres => exact valid_of_inv hres.inv ih.apart
  | refused _ hrun hown hsize ih =>
    obtain ⟨hfree, rfl⟩ := Refusal.newkeyAt_unchanged hrun hown hsize
    exact ih.noFreepos hfree
  | collect _ hcollect ih => exact (ih.collects hcollect).1

end Aged

end UgmeeLua.Ltable

import UgmeeLua.Ltable.Maps

namespace UgmeeLua.Constants

open Ltable Ltable.Table LawfulNumber

def MAXARG_Bx : Nat := 2 ^ 18 - 1

variable {N : Type}

/-- What a function that is being compiled has of its constants: `fs->h`, and `f->k` as far as `fs->nk`. -/
structure FuncState (N : Type) where
  h : Table N
  k : List (TValue N)

section Operations

variable [LuaNumber N] (hash : TValue N → Nat) (depth : Nat)

def addk (fs : FuncState N) (k v : TValue N) : Except Failure (Nat × FuncState N) := do
  let (idx, h) ← luaHSet hash depth fs.h k
  match ← h.read idx with
  | .number n => .ok ((LuaNumber.toInt n).toNat, { fs with h := h })
  | _ =>
    let h ← h.write (.number (castNum (BitVec.ofNat 32 fs.k.length))) idx
    if fs.k.length ≥ MAXARG_Bx then .error (.raised "constant table overflow")
    else .ok (fs.k.length, { h := h, k := fs.k ++ [v] })

def luaKStringK (fs : FuncState N) (s : Bytes) : Except Failure (Nat × FuncState N) :=
  addk hash depth fs (.string s) (.string s)

def luaKNumberK (fs : FuncState N) (r : N) : Except Failure (Nat × FuncState N) :=
  addk hash depth fs (.number r) (.number r)

def boolK (fs : FuncState N) (b : Bool) : Except Failure (Nat × FuncState N) :=
  addk hash depth fs (.boolean b) (.boolean b)

/-- The table `fs->h`, which is `ref`, stands for nil. -/
def nilK (ref : Nat) (fs : FuncState N) : Except Failure (Nat × FuncState N) :=
  addk hash depth fs (.table ref) .nil

def luaXNewstring (fs : FuncState N) (str : Bytes) : Except Failure (FuncState N) := do
  let (o, h) ← luaHSetstr hash depth fs.h str
  match ← h.read o with
  | .nil =>
    let h ← h.write (.boolean true) o
    .ok { fs with h := h }
  | _ => .ok { fs with h := h }

end Operations

/-- A request for a constant. -/
inductive Request (N : Type) where
  | stringK (s : Bytes)
  | numberK (r : N)
  | boolK (b : Bool)
  | nilK

def Request.constant : Request N → TValue N
  | .stringK s => .string s
  | .numberK r => .number r
  | .boolK b => .boolean b
  | .nilK => .nil

def Request.key (ref : Nat) : Request N → TValue N
  | .nilK => .table ref
  | r => r.constant

/-- A request that has been answered: the index, and the constants that there were then. -/
structure Answer (N : Type) where
  request : Request N
  index : Nat
  k : List (TValue N)

section Runs

variable [LuaNumber N] (hash : TValue N → Nat) (depth ref : Nat)

def answer (fs : FuncState N) : Request N → Except Failure (Nat × FuncState N)
  | .stringK s => luaKStringK hash depth fs s
  | .numberK r => luaKNumberK hash depth fs r
  | .boolK b => boolK hash depth fs b
  | .nilK => nilK hash depth ref fs

/-- What requests, and strings that are anchored between them, come to in one function. -/
inductive Compiles : FuncState N → List (Answer N) → Prop
  | new {h : Table N} (hnew : luaHNew 0 0 = .ok h) : Compiles ⟨h, []⟩ []
  | request {fs fs' : FuncState N} {log : List (Answer N)} {r : Request N} {i : Nat} (h : Compiles fs log)
      (hr : answer hash depth ref fs r = .ok (i, fs')) : Compiles fs' (log ++ [⟨r, i, fs'.k⟩])
  | newstring {fs fs' : FuncState N} {log : List (Answer N)} {str : Bytes} (h : Compiles fs log)
      (hs : luaXNewstring hash depth fs str = .ok fs') : Compiles fs' log

end Runs

/-- The constant at each index is the one that was asked for, the same request always has the same index,
and the constants at the indices have not changed since. -/
structure Correct (fs : FuncState N) (log : List (Answer N)) : Prop where
  stored : ∀ a ∈ log, a.k[a.index]? = some a.request.constant
  same : ∀ a ∈ log, ∀ a' ∈ log, a.request = a'.request → a.index = a'.index
  kept : ∀ a ∈ log, fs.k[a.index]? = a.k[a.index]?

/-- Numbers that were asked for and compare equal are identical. -/
def NoTwins [LuaNumber N] (log : List (Answer N)) : Prop :=
  ∀ a ∈ log, ∀ a' ∈ log, ∀ x y, a.request = .numberK x → a'.request = .numberK y → luaiNumeq x y = true → x = y

section Proofs

variable [LuaNumber N] {hash : TValue N → Nat} {depth ref i : Nat} {fs fs' : FuncState N}
  {log : List (Answer N)} {m : TValue N → TValue N} {key v : TValue N} {t : Table N} {s : Slot}

theorem answer_eq (fs : FuncState N) (r : Request N) :
    answer hash depth ref fs r = addk hash depth fs (r.key ref) r.constant := by
  cases r <;> rfl

variable [LawfulNumber N]

/-- The table holds a map, which does not tell equal keys apart. -/
structure Maps (hash : TValue N → Nat) (t : Table N) (m : TValue N → TValue N) : Prop where
  inv : Inv hash t
  holds : Holds t m
  congr : ∀ a b, luaORawequalObj a b = true → m a = m b

theorem Maps.read (h : Maps hash t m) (hhash : Consistent hash) (hkey : Proper key)
    (hkept : Kept t key (some s)) : t.read s = .ok (m key) := by
  obtain ⟨v, hlookup, hhas⟩ := h.inv.lookup_spec hhash hkey.1
  have hget : luaHGet hash t key = some s := by
    cases hkept with
    | array hin => exact luaHGet_array h.inv.sizearray hin
    | node _ hi hk => exact h.inv.get_node hhash hi hk
  have hread : t.read s = .ok v := by
    rw [lookup, hget] at hlookup
    exact hlookup
  have heq : ∀ w, (w = v ∧ w ≠ .nil) ↔ (w = m key ∧ w ≠ .nil) := fun w =>
    (hhas w).symm.trans (h.holds key w hkey)
  rw [hread]
  by_cases hnil : v = .nil
  · by_cases hm : m key = .nil
    · rw [hnil, hm]
    · rw [((heq (m key)).mpr ⟨rfl, hm⟩).1]
  · rw [((heq v).mp ⟨rfl, hnil⟩).1]

theorem store_congr (h : ∀ a b, luaORawequalObj a b = true → m a = m b) (key v : TValue N) (a b : TValue N)
    (hab : luaORawequalObj a b = true) : store m key v a = store m key v b := by
  have hiff : luaORawequalObj key a = luaORawequalObj key b :=
    Bool.eq_iff_iff.mpr ⟨fun ha => rawequal_trans ha hab, fun hb => rawequal_trans hb (rawequal_symm hab)⟩
  rw [store, store, hiff, h a b hab]

omit [LawfulNumber N] in
theorem Maps.placed (h : Maps hash t m) {r : Slot × Table N} (hplaced : Placed hash t key r) :
    Maps hash r.2 m :=
  ⟨hplaced.inv, fun k w hk => (hplaced.has k w).trans (h.holds k w hk), h.congr⟩

theorem Maps.write (h : Maps hash t m) (hkept : Kept t key (some s)) (v : TValue N) :
    ∃ t', t.write v s = .ok t' ∧ Maps hash t' (store m key v) := by
  obtain ⟨t', hwrite, hinv, hhas⟩ := h.inv.write_kept hkept v
  exact ⟨t', hwrite, hinv, h.holds.store hhas, store_congr h.congr key v⟩

/-- What `addk` finds, or puts, in the table. -/
inductive Added (hash : TValue N → Nat) (fs : FuncState N) (m : TValue N → TValue N) (key v : TValue N) :
    Nat × FuncState N → Prop
  | found {n : N} {h : Table N} (hm : m key = .number n) (hmaps : Maps hash h m) :
      Added hash fs m key v ((LuaNumber.toInt n).toNat, { fs with h := h })
  | entry {h : Table N} (hm : ∀ n, m key ≠ .number n) (hlt : fs.k.length < MAXARG_Bx)
      (hmaps : Maps hash h (store m key (.number (castNum (BitVec.ofNat 32 fs.k.length))))) :
      Added hash fs m key v (fs.k.length, { h := h, k := fs.k ++ [v] })

/-- How a request ends: it is answered, or one of the two tables is full. -/
inductive Ends {α : Type} (P : α → Prop) : Except Failure α → Prop
  | ok {a : α} (h : P a) : Ends P (.ok a)
  | tableOverflow : Ends P (.error (.raised "table overflow"))
  | constantTableOverflow : Ends P (.error (.raised "constant table overflow"))

theorem Ends.of_ok {α : Type} {P : α → Prop} {a : α} (h : Ends P (.ok a)) : P a := by
  cases h with
  | ok h => exact h

theorem addk_ends (h : Maps hash fs.h m) (hhash : Consistent hash) (hdepth : 3 ≤ depth) (hkey : Proper key)
    (v : TValue N) : Ends (Added hash fs m key v) (addk hash depth fs key v) := by
  have hplaced := h.inv.luaHSet_placed hhash hkey hdepth
  unfold addk
  generalize luaHSet hash depth fs.h key = r at hplaced
  cases hplaced with
  | overflow => exact .tableOverflow
  | @ok r hplaced =>
    obtain ⟨s, t⟩ := r
    have hmaps := h.placed hplaced
    have hread := hmaps.read hhash hkey hplaced.kept
    obtain ⟨t', hwrite, hstored⟩ := hmaps.write hplaced.kept
      (.number (castNum (BitVec.ofNat 32 fs.k.length)))
    have hentry : (∀ n, m key ≠ .number n) → Ends (Added hash fs m key v) (do
        let h ← t.write (.number (castNum (BitVec.ofNat 32 fs.k.length))) s
        if fs.k.length ≥ MAXARG_Bx then .error (.raised "constant table overflow")
        else .ok (fs.k.length, { h := h, k := fs.k ++ [v] })) := by
      intro hm
      have hwrite : t.write (.number (castNum (BitVec.ofNat 32 fs.k.length))) s = .ok t' := hwrite
      rw [hwrite]
      change Ends _ (if fs.k.length ≥ MAXARG_Bx then _ else _)
      split_ifs with hfull
      · exact .constantTableOverflow
      · exact .ok (.entry hm (Nat.lt_of_not_le hfull) hstored)
    have hread : t.read s = .ok (m key) := hread
    change Ends _ (t.read s >>= _)
    rw [hread]
    cases hm : m key with
    | number n => exact .ok (.found hm hmaps)
    | _ => exact hentry fun n => by simp [hm]

theorem proper_of_addk {r : Nat × FuncState N} (h : addk hash depth fs key v = .ok r) : Proper key := by
  unfold addk at h
  cases hset : luaHSet hash depth fs.h key with
  | ok p => exact proper_of_set hset
  | error e =>
    rw [hset] at h
    cases h

/-- A string that is anchored changes no entry that there is. -/
theorem luaXNewstring_ends (h : Maps hash fs.h m) (hhash : Consistent hash) (hdepth : 3 ≤ depth) (str : Bytes) :
    Ends (fun fs' => fs'.k = fs.k ∧ (Maps hash fs'.h m ∨
      m (.string str) = .nil ∧ Maps hash fs'.h (store m (.string str) (.boolean true))))
      (luaXNewstring hash depth fs str) := by
  have hkey : Proper (.string str : TValue N) := ⟨by simp, by simp [luaORawequalObj]⟩
  have hplaced := h.inv.luaHSet_placed hhash hkey hdepth
  unfold luaXNewstring
  rw [luaHSetstr_eq]
  generalize luaHSet hash depth fs.h (.string str) = r at hplaced
  cases hplaced with
  | overflow => exact .tableOverflow
  | @ok r hplaced =>
    obtain ⟨s, t⟩ := r
    have hmaps := h.placed hplaced
    have hread : t.read s = .ok (m (.string str)) := hmaps.read hhash hkey hplaced.kept
    obtain ⟨t', hwrite, hstored⟩ := hmaps.write hplaced.kept (.boolean true)
    have hwrite : t.write (.boolean true) s = .ok t' := hwrite
    change Ends _ (t.read s >>= _)
    rw [hread]
    cases hm : m (.string str) with
    | nil =>
      change Ends _ (t.write (.boolean true) s >>= _)
      rw [hwrite]
      exact .ok ⟨rfl, .inr ⟨rfl, hstored⟩⟩
    | _ => exact .ok ⟨rfl, .inl hmaps⟩

/-- What the table and the constants say of each other, and of the requests that were answered. -/
structure Tracked (hash : TValue N → Nat) (ref : Nat) (fs : FuncState N) (log : List (Answer N))
    (m : TValue N → TValue N) : Prop where
  maps : Maps hash fs.h m
  length : fs.k.length ≤ MAXARG_Bx
  found : ∀ key n, m key = .number n → ∃ a ∈ log, n = castNum (BitVec.ofNat 32 a.index) ∧
    luaORawequalObj (a.request.key ref) key = true ∧ fs.k[a.index]? = some a.request.constant
  logged : ∀ a ∈ log, a.index < a.k.length ∧ a.k <+: fs.k ∧
    m (a.request.key ref) = .number (castNum (BitVec.ofNat 32 a.index))

theorem castNum_inj {i j : Nat} (hi : i < MAXARG_Bx) (hj : j < MAXARG_Bx)
    (h : (castNum (BitVec.ofNat 32 i) : N) = castNum (BitVec.ofNat 32 j)) : i = j := by
  have hword : BitVec.ofNat 32 i = BitVec.ofNat 32 j := by
    rw [← toInt_castNum (N := N) (BitVec.ofNat 32 i), h, toInt_castNum]
  have hnat := congrArg BitVec.toNat hword
  rw [BitVec.toNat_ofNat, BitVec.toNat_ofNat] at hnat
  unfold MAXARG_Bx at hi hj
  omega

theorem toInt_index {i : Nat} (hi : i < MAXARG_Bx) :
    (LuaNumber.toInt (castNum (BitVec.ofNat 32 i) : N)).toNat = i := by
  rw [toInt_castNum, BitVec.toNat_ofNat]
  unfold MAXARG_Bx at hi
  omega

omit [LawfulNumber N] in
theorem Tracked.index_lt (h : Tracked hash ref fs log m) {a : Answer N} (ha : a ∈ log) :
    a.index < fs.k.length ∧ a.index < MAXARG_Bx := by
  obtain ⟨hlt, hprefix, -⟩ := h.logged a ha
  have hle := hprefix.length_le
  have hmax := h.length
  omega

/-- Equal keys of requests that were answered have one index. -/
theorem Tracked.index_eq (h : Tracked hash ref fs log m) {a a' : Answer N} (ha : a ∈ log) (ha' : a' ∈ log)
    (hkey : m (a.request.key ref) = m (a'.request.key ref)) : a.index = a'.index := by
  have hm := (h.logged a ha).2.2
  rw [hkey, (h.logged a' ha').2.2] at hm
  exact castNum_inj (h.index_lt ha).2 (h.index_lt ha').2 (TValue.number.inj hm).symm

theorem Tracked.request (h : Tracked hash ref fs log m) {r : Request N} (hkey : Proper (r.key ref))
    (hadd : Added hash fs m (r.key ref) r.constant (i, fs')) :
    ∃ m', Tracked hash ref fs' (log ++ [⟨r, i, fs'.k⟩]) m' := by
  cases hadd with
  | @found n t hm hmaps =>
    obtain ⟨a, ha, rfl, hraw, hk⟩ := h.found _ n hm
    obtain ⟨hlt, hmax⟩ := h.index_lt ha
    rw [toInt_index hmax]
    refine ⟨m, hmaps, h.length, fun key n hn => ?_, fun a' ha' => ?_⟩
    · obtain ⟨a', ha', heq⟩ := h.found key n hn
      exact ⟨a', List.mem_append_left _ ha', heq⟩
    · rcases List.mem_append.mp ha' with ha' | ha'
      · exact h.logged a' ha'
      · obtain rfl := List.mem_singleton.mp ha'
        exact ⟨hlt, List.prefix_refl _, hm⟩
  | @entry t hm hlt hmaps =>
    refine ⟨_, hmaps, ?_, fun key n hn => ?_, fun a ha => ?_⟩
    · rw [List.length_append, List.length_singleton]
      exact hlt
    · rw [store] at hn
      split_ifs at hn with hraw
      · refine ⟨⟨r, fs.k.length, fs.k ++ [r.constant]⟩, by simp, (TValue.number.inj hn).symm, hraw, ?_⟩
        simp
      · obtain ⟨a, ha, hcast, heq, hk⟩ := h.found key n hn
        refine ⟨a, List.mem_append_left _ ha, hcast, heq, ?_⟩
        rw [List.getElem?_append_left (h.index_lt ha).1]
        exact hk
    · rcases List.mem_append.mp ha with ha | ha
      · obtain ⟨hindex, hprefix, hkept⟩ := h.logged a ha
        refine ⟨hindex, hprefix.trans (List.prefix_append _ _), ?_⟩
        rw [store, if_neg]
        · exact hkept
        · intro hraw
          exact hm _ ((h.maps.congr _ _ hraw).trans hkept)
      · obtain rfl := List.mem_singleton.mp ha
        refine ⟨by simp, List.prefix_refl _, ?_⟩
        rw [store, if_pos hkey.2]

omit [LawfulNumber N] in
theorem Tracked.newstring (h : Tracked hash ref fs log m) {str : Bytes} (hk : fs'.k = fs.k)
    (hmaps : Maps hash fs'.h m ∨
      m (.string str) = .nil ∧ Maps hash fs'.h (store m (.string str) (.boolean true))) :
    ∃ m', Tracked hash ref fs' log m' := by
  rcases hmaps with hmaps | ⟨hnil, hmaps⟩
  · exact ⟨m, hmaps, hk ▸ h.length, hk ▸ h.found, hk ▸ h.logged⟩
  · refine ⟨_, hmaps, hk ▸ h.length, fun key n hn => ?_, fun a ha => ?_⟩
    · rw [store] at hn
      split_ifs at hn
      rw [hk]
      exact h.found key n hn
    · obtain ⟨hindex, hprefix, hkept⟩ := h.logged a ha
      refine ⟨hindex, hk ▸ hprefix, ?_⟩
      rw [store, if_neg]
      · exact hkept
      · intro hraw
        rw [← h.maps.congr _ _ hraw, hnil] at hkept
        cases hkept

theorem Compiles.tracked (hhash : Consistent hash) (hdepth : 3 ≤ depth) (h : Compiles hash depth ref fs log) :
    ∃ m, Tracked hash ref fs log m := by
  induction h with
  | new hnew =>
    obtain ⟨hinv, hholds⟩ := @luaHNew_spec _ _ hash _ _ _ (Nat.two_pow_pos 31) hnew
    refine ⟨fun _ => .nil, ⟨hinv, hholds, fun _ _ _ => rfl⟩, Nat.zero_le _, fun _ _ h => ?_, fun _ h => ?_⟩
    · cases h
    · cases h
  | @request _ _ _ r _ _ hr ih =>
    obtain ⟨m, ih⟩ := ih
    rw [answer_eq] at hr
    have hkey := proper_of_addk hr
    have hends := addk_ends ih.maps hhash hdepth hkey r.constant
    rw [hr] at hends
    exact ih.request hkey hends.of_ok
  | @newstring _ _ _ str _ hs ih =>
    obtain ⟨m, ih⟩ := ih
    have hends := luaXNewstring_ends ih.maps hhash hdepth str
    rw [hs] at hends
    exact ih.newstring hends.of_ok.1 hends.of_ok.2

/-- Every request for what is no NaN is answered, unless a table is full. -/
theorem Compiles.answers (hhash : Consistent hash) (hdepth : 3 ≤ depth) (h : Compiles hash depth ref fs log)
    {r : Request N} (hr : Proper (r.key ref)) : Ends (fun _ => True) (answer hash depth ref fs r) := by
  obtain ⟨m, htracked⟩ := h.tracked hhash hdepth
  rw [answer_eq]
  generalize hrun : addk hash depth fs (r.key ref) r.constant = x
  have hends := addk_ends htracked.maps hhash hdepth hr r.constant
  rw [hrun] at hends
  cases hends with
  | ok _ => exact .ok trivial
  | tableOverflow => exact .tableOverflow
  | constantTableOverflow => exact .constantTableOverflow

omit [LawfulNumber N] in
/-- Requests with equal keys are the same, but for numbers. -/
theorem request_eq {r r' : Request N} (h : luaORawequalObj (r.key ref) (r'.key ref) = true)
    (hnum : ∀ x y, r = .numberK x → r' = .numberK y → luaiNumeq x y = true → x = y) : r = r' := by
  cases r <;> cases r' <;> simp_all [Request.key, Request.constant, luaORawequalObj]

/-- The constants are the ones that were asked for exactly when no two numbers among them are different, but
compare equal. -/
theorem Compiles.correct_iff (hhash : Consistent hash) (hdepth : 3 ≤ depth)
    (h : Compiles hash depth ref fs log) : Correct fs log ↔ NoTwins log := by
  obtain ⟨m, h⟩ := h.tracked hhash hdepth
  have hkept : ∀ a ∈ log, fs.k[a.index]? = a.k[a.index]? := by
    intro a ha
    obtain ⟨hlt, ⟨rest, hrest⟩, -⟩ := h.logged a ha
    rw [← hrest, List.getElem?_append_left hlt]
  constructor
  · intro hcorrect a ha a' ha' x y hx hy hxy
    have hkeys : m (a.request.key ref) = m (a'.request.key ref) := by
      rw [hx, hy]
      exact h.maps.congr _ _ hxy
    have hindex := h.index_eq ha ha' hkeys
    have hstored := (hcorrect.kept a ha).trans (hcorrect.stored a ha)
    rw [hindex, hcorrect.kept a' ha', hcorrect.stored a' ha', hx, hy] at hstored
    exact (TValue.number.inj (Option.some_inj.mp hstored)).symm
  · intro htwins
    refine ⟨fun a ha => ?_, fun a ha a' ha' heq => h.index_eq ha ha' (by rw [heq]), hkept⟩
    obtain ⟨-, -, hm⟩ := h.logged a ha
    obtain ⟨a', ha', hcast, hraw, hk⟩ := h.found _ _ hm
    have hindex := castNum_inj (h.index_lt ha).2 (h.index_lt ha').2 hcast
    have hrequest := request_eq hraw (htwins a' ha' a ha)
    rw [← hkept a ha, hindex, hk, hrequest]

end Proofs

/-! ## Two zeros -/

/-- A whole number as a sign and a magnitude. -/
abbrev Signed := Bool × Nat

def Signed.toInt (x : Signed) : Int := if x.1 then -x.2 else x.2

def Signed.ofInt (n : Int) : Signed := (decide (n < 0), n.natAbs)

theorem Signed.toInt_ofInt (n : Int) : (Signed.ofInt n).toInt = n := by
  unfold Signed.toInt Signed.ofInt
  by_cases h : n < 0
  · simp only [h, decide_true, if_true]
    omega
  · simp only [h, decide_false, Bool.false_eq_true, if_false]
    omega

instance : LuaNumber Signed where
  zero := (false, 0)
  add a b := .ofInt (a.toInt + b.toInt)
  sub a b := .ofInt (a.toInt - b.toInt)
  mul a b := .ofInt (a.toInt * b.toInt)
  div a b := .ofInt (a.toInt.fdiv b.toInt)
  neg a := (!a.1, a.2)
  floor := id
  pow a b := .ofInt (a.toInt ^ b.toInt.toNat)
  eq a b := a.toInt == b.toInt
  lt a b := decide (a.toInt < b.toInt)
  le a b := decide (a.toInt ≤ b.toInt)
  toInt a := BitVec.ofInt 32 a.toInt
  ofInteger n := .ofInt n.toInt
  str2d s := (LuaNumber.str2d s : Option Int).map Signed.ofInt
  eq_zero := by decide

instance : LawfulNumber Signed where
  eq_symm h := by
    simp only [luaiNumeq, LuaNumber.eq, beq_iff_eq] at h ⊢
    exact h.symm
  eq_trans h h' := by
    simp only [luaiNumeq, LuaNumber.eq, beq_iff_eq] at h h' ⊢
    exact h.trans h'
  toInt_congr h := by
    simp only [luaiNumeq, LuaNumber.eq, beq_iff_eq] at h
    simp only [LuaNumber.toInt, h]
  toInt_castNum k := by
    simp only [Ltable.castNum, LuaNumber.toInt, LuaNumber.ofInteger, Signed.toInt_ofInt]
    rw [BitVec.toInt_signExtend_of_le (by decide), BitVec.ofInt_toInt]
  castNum_eq k := by
    simp only [luaiNumeq, LuaNumber.eq, beq_self_eq_true]

/-- A string is anchored, and then asked for twice. -/
theorem Compiles.correct_anchored : ∃ (fs : FuncState Int) (log : List (Answer Int)),
    log.map (fun a => (a.index, a.k.length)) = [(0, 1), (0, 1)] ∧ (Correct fs log ↔ NoTwins log) := by
  obtain ⟨h, fs1, fs2, fs3, hnew, hanchor, hstring, hagain, hlog⟩ :
      ∃ (h : Table Int) (fs1 fs2 fs3 : FuncState Int), luaHNew 0 0 = .ok h ∧
        luaXNewstring (fun _ => 0) 3 ⟨h, []⟩ [120] = .ok fs1 ∧
        answer (fun _ => 0) 3 7 fs1 (.stringK [120]) = .ok (0, fs2) ∧
        answer (fun _ => 0) 3 7 fs2 (.stringK [120]) = .ok (0, fs3) ∧
        [(0, fs2.k.length), (0, fs3.k.length)] = [(0, 1), (0, 1)] :=
    ⟨_, _, _, _, rfl, rfl, rfl, rfl, rfl⟩
  have hcompiles := (((Compiles.new hnew).newstring hanchor).request hstring).request hagain
  refine ⟨fs3, [⟨.stringK [120], 0, fs2.k⟩, ⟨.stringK [120], 0, fs3.k⟩], hlog, ?_⟩
  exact hcompiles.correct_iff (fun _ _ _ => rfl) (by decide)

/-- Zero is asked for, and then minus zero. -/
theorem Compiles.not_correct_minusZero : ¬ ∀ (fs : FuncState Signed) (log : List (Answer Signed)),
    Compiles (fun _ => 0) 3 7 fs log → Correct fs log := by
  intro hall
  obtain ⟨h, fs1, fs2, hnew, hzero, hminus, hk⟩ :
      ∃ (h : Table Signed) (fs1 fs2 : FuncState Signed), luaHNew 0 0 = .ok h ∧
        answer (fun _ => 0) 3 7 ⟨h, []⟩ (.numberK (false, 0)) = .ok (0, fs1) ∧
        answer (fun _ => 0) 3 7 fs1 (.numberK (true, 0)) = .ok (0, fs2) ∧
        fs2.k = [.number (false, 0)] :=
    ⟨_, _, _, rfl, rfl, rfl, rfl⟩
  have hstored := (hall fs2 _ (((Compiles.new hnew).request hzero).request hminus)).stored
    ⟨.numberK (true, 0), 0, fs2.k⟩ (by simp)
  rw [hk] at hstored
  simp [Request.constant] at hstored

end UgmeeLua.Constants

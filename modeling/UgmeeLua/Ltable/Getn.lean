import UgmeeLua.Ltable.Maps

namespace UgmeeLua.Ltable

open Scatter Ltable.Table LawfulNumber

variable {N : Type} [LuaNumber N]

def INT_MAX : Nat := 2 ^ 31 - 1

def MAX_INT : Nat := INT_MAX - 2

/-- A search that has not come to its end: memory is read where there is none, or more passes are needed
than were asked for. -/
inductive Unfinished where
  | failure (f : Failure)
  | passes
  deriving DecidableEq, Repr

/-- What a search does with its indices: it gives one to `luaH_getnum`, or computes a value, which is
here before its reduction to an `unsigned int`. -/
inductive Use where
  | getnum (j : BitVec 32)
  | value (n : Nat)
  deriving DecidableEq, Repr

/-- The index is one that an `int` can have, the value one that an `unsigned int` can have. -/
def Use.Fits : Use → Prop
  | .getnum j => j.toNat ≤ INT_MAX
  | .value n => n < 2 ^ 32

abbrev Searched := Except Unfinished (BitVec 32 × List Use)

/-- `ttisnil` of the value where a search of the table has come to. -/
def ttisnil (r : Except Failure (TValue N)) : Except Unfinished Bool :=
  match r with
  | .ok v => .ok v.isNil
  | .error f => .error (.failure f)

variable (hash : TValue N → Nat) (t : Table N)

/-- `ttisnil(luaH_getnum(t, j))`. -/
def nilGetnum (j : BitVec 32) : Except Unfinished Bool := ttisnil (t.found (luaHGetnum hash t j))

/-- `ttisnil(&t->array[m - 1])`. -/
def nilArray (m : BitVec 32) : Except Unfinished Bool := ttisnil (t.read (.array (m - 1).toNat))

/-- The binary searches of `luaH_getn` and `unbound_search`, between `i` and `j`. -/
def binarySearch (isNil : BitVec 32 → Except Unfinished Bool) (use : BitVec 32 → List Use) :
    Nat → BitVec 32 → BitVec 32 → Searched
  | 0, _, _ => .error .passes
  | fuel + 1, i, j =>
    if j - i > 1 then do
      let m := (i + j) / 2
      let isnil ← isNil m
      let (n, uses) ←
        (if isnil then binarySearch isNil use fuel i m else binarySearch isNil use fuel m j)
      .ok (n, .value (i.toNat + j.toNat) :: use m ++ uses)
    else .ok (i, [])

/-- The linear search of `unbound_search`, from `i` on. -/
def linearSearch : Nat → BitVec 32 → Searched
  | 0, _ => .error .passes
  | fuel + 1, i => do
    let isnil ← nilGetnum hash t i
    if isnil then .ok (i - 1, [.getnum i])
    else
      let (n, uses) ← linearSearch fuel (i + 1)
      .ok (n, .getnum i :: .value (i.toNat + 1) :: uses)

/-- `unbound_search` from its first loop on; `fuel` bounds the passes of each loop. -/
def unboundLoop (fuel : Nat) : Nat → BitVec 32 → BitVec 32 → Searched
  | 0, _, _ => .error .passes
  | passes + 1, i, j => do
    let isnil ← nilGetnum hash t j
    if isnil then
      let (n, uses) ← binarySearch (nilGetnum hash t) (fun m => [.getnum m]) fuel i j
      .ok (n, .getnum j :: uses)
    else
      let i := j
      let j := j * 2
      let (n, uses) ←
        (if j.toNat > MAX_INT then linearSearch hash t fuel 1 else unboundLoop fuel passes i j)
      .ok (n, .getnum i :: .value (i.toNat * 2) :: uses)

def unboundSearch (fuel : Nat) (j : BitVec 32) : Searched := do
  let (n, uses) ← unboundLoop hash t fuel fuel j (j + 1)
  .ok (n, .value (j.toNat + 1) :: uses)

def luaHGetn (fuel : Nat) : Searched := do
  let j : BitVec 32 := BitVec.ofNat 32 t.sizearray
  let isnil ← if j > 0 then nilArray t j else .ok false
  if isnil then binarySearch (nilArray t) (fun _ => []) fuel 0 j
  else if t.isDummy then .ok (j, [])
  else unboundSearch hash t fuel j

/-- The value of an integer key is nil. -/
def NilAt (k : Nat) : Prop := t.found (luaHGetnum hash t (BitVec.ofNat 32 k)) = .ok .nil

/-- A boundary: the key is 0 or has a value, and the next key has none. -/
def Boundary (n : Nat) : Prop :=
  n < INT_MAX ∧ (n = 0 ∨ ¬ NilAt hash t n) ∧ NilAt hash t (n + 1)

/-- `luaH_getn` comes to an end with a boundary, and its indices keep within their types. -/
def GetnCorrect : Prop :=
  ∃ fuel n uses, luaHGetn hash t fuel = .ok (n, uses) ∧ Boundary hash t n.toNat ∧ ∀ u ∈ uses, u.Fits

section Searches

variable {hash t} {isNil : BitVec 32 → Except Unfinished Bool} {P : Nat → Prop}

/-- A test tells what holds of its index. -/
def Tells (isNil : BitVec 32 → Except Unfinished Bool) (P : Nat → Prop) (m : BitVec 32) : Prop :=
  (isNil m = .ok true ∧ P m.toNat) ∨ (isNil m = .ok false ∧ ¬ P m.toNat)

/-- What a search comes to. -/
structure Found (P : Nat → Prop) (r : BitVec 32 × List Use) : Prop where
  present : r.1.toNat = 0 ∨ ¬ P r.1.toNat
  absent : P (r.1.toNat + 1)
  fits : ∀ u ∈ r.2, u.Fits

theorem Found.after {n : BitVec 32} {uses : List Use} (h : Found P (n, uses)) (uses' : List Use)
    (hfits : ∀ u ∈ uses', u.Fits) : Found P (n, uses' ++ uses) := by
  refine ⟨h.present, h.absent, fun u hu => ?_⟩
  rcases List.mem_append.mp hu with hu | hu
  · exact hfits u hu
  · exact h.fits u hu

theorem binarySearch_found (use : BitVec 32 → List Use) (fuel : Nat) {i j : BitVec 32} (hij : i.toNat < j.toNat)
    (hj : j.toNat ≤ INT_MAX) (hfuel : j.toNat - i.toNat ≤ fuel)
    (htells : ∀ m : BitVec 32, i.toNat < m.toNat → m.toNat < j.toNat → Tells isNil P m)
    (hfits : ∀ m : BitVec 32, i.toNat < m.toNat → m.toNat < j.toNat → ∀ u ∈ use m, u.Fits)
    (hpresent : i.toNat = 0 ∨ ¬ P i.toNat) (habsent : P j.toNat) :
    ∃ r, binarySearch isNil use fuel i j = .ok r ∧ Found P r ∧ r.1.toNat < j.toNat := by
  have hmax : INT_MAX = 2147483647 := rfl
  induction fuel generalizing i j with
  | zero => omega
  | succ fuel ih =>
    have hgap : (j - i).toNat = j.toNat - i.toNat := BitVec.toNat_sub_of_le (BitVec.le_def.mpr (by omega))
    have hone : (1 : BitVec 32).toNat = 1 := rfl
    rw [binarySearch]
    by_cases hmore : j - i > 1
    · have hlt : 1 < j.toNat - i.toNat := by
        rw [← hgap, ← hone]
        exact BitVec.lt_def.mp hmore
      have hm : ((i + j) / 2).toNat = (i.toNat + j.toNat) / 2 := by
        rw [BitVec.toNat_udiv, BitVec.toNat_add, Nat.mod_eq_of_lt (by omega)]
        rfl
      rw [if_pos hmore]
      generalize (i + j) / 2 = m at hm
      have him : i.toNat < m.toNat := by omega
      have hmj : m.toNat < j.toNat := by omega
      have hsum : ∀ u ∈ .value (i.toNat + j.toNat) :: use m, u.Fits := by
        intro u hu
        rcases List.mem_cons.mp hu with rfl | hu
        · change i.toNat + j.toNat < 2 ^ 32
          omega
        · exact hfits m him hmj u hu
      rcases htells m him hmj with ⟨htest, hp⟩ | ⟨htest, hp⟩
      · obtain ⟨⟨n, uses⟩, hrun, hfound, hlast⟩ := ih him (by omega) (by omega)
          (fun k hk hkm => htells k hk (by omega)) (fun k hk hkm => hfits k hk (by omega)) hpresent hp
        refine ⟨_, ?_, hfound.after _ hsum, Nat.lt_trans hlast hmj⟩
        dsimp only
        rw [htest]
        change (binarySearch isNil use fuel i m >>= _) = _
        rw [hrun]
        rfl
      · obtain ⟨⟨n, uses⟩, hrun, hfound, hlast⟩ := ih hmj hj (by omega)
          (fun k hk hkj => htells k (by omega) hkj) (fun k hk hkj => hfits k (by omega) hkj) (.inr hp)
          habsent
        refine ⟨_, ?_, hfound.after _ hsum, hlast⟩
        dsimp only
        rw [htest]
        change (binarySearch isNil use fuel m j >>= _) = _
        rw [hrun]
        rfl
    · have hnext : j.toNat = i.toNat + 1 := by
        have hle : ¬ 1 < j.toNat - i.toNat := by
          rw [← hgap, ← hone]
          exact fun hlt => hmore (BitVec.lt_def.mpr hlt)
        omega
      rw [if_neg hmore]
      exact ⟨_, rfl, ⟨hpresent, hnext ▸ habsent, fun u hu => absurd hu List.not_mem_nil⟩, hij⟩

theorem linearSearch_found (htells : ∀ m, Tells (nilGetnum hash t) (NilAt hash t) m) (fuel : Nat)
    {i : BitVec 32} {k : Nat} (hi : 1 ≤ i.toNat) (hik : i.toNat ≤ k) (hk : k ≤ INT_MAX)
    (hfuel : k < fuel + i.toNat) (hnil : NilAt hash t k)
    (hpresent : i.toNat = 1 ∨ ¬ NilAt hash t (i.toNat - 1)) :
    ∃ r, linearSearch hash t fuel i = .ok r ∧ Found (NilAt hash t) r ∧ r.1.toNat < k := by
  have hmax : INT_MAX = 2147483647 := rfl
  induction fuel generalizing i with
  | zero => omega
  | succ fuel ih =>
    have hone : (1 : BitVec 32).toNat = 1 := rfl
    have hfits : Use.Fits (.getnum i) := by
      change i.toNat ≤ INT_MAX
      omega
    rw [linearSearch]
    rcases htells i with ⟨htest, hp⟩ | ⟨htest, hp⟩
    · have hprev : (i - 1).toNat = i.toNat - 1 := by
        rw [BitVec.toNat_sub_of_le (BitVec.le_def.mpr (by omega)), hone]
      rw [htest]
      refine ⟨_, rfl, ⟨?_, ?_, fun u hu => List.mem_singleton.mp hu ▸ hfits⟩, ?_⟩
      · rw [hprev]
        exact hpresent.imp_left fun h => by omega
      · rw [hprev, Nat.sub_add_cancel hi]
        exact hp
      · rw [hprev]
        omega
    · have hne : i.toNat ≠ k := fun heq => hp (heq ▸ hnil)
      have hnext : (i + 1).toNat = i.toNat + 1 := by
        rw [BitVec.toNat_add, hone, Nat.mod_eq_of_lt (by omega)]
      obtain ⟨⟨n, uses⟩, hrun, hfound, hlast⟩ := ih (i := i + 1) (by omega) (by omega) (by omega)
        (.inr (by rw [hnext]; exact hp))
      rw [htest]
      refine ⟨_, ?_, hfound.after [.getnum i, .value (i.toNat + 1)] fun u hu => ?_, hlast⟩
      · change (linearSearch hash t fuel (i + 1) >>= _) = _
        rw [hrun]
        rfl
      · rcases List.mem_cons.mp hu with rfl | hu
        · exact hfits
        · rw [List.mem_singleton.mp hu]
          change i.toNat + 1 < 2 ^ 32
          omega

theorem unboundLoop_found (htells : ∀ m, Tells (nilGetnum hash t) (NilAt hash t) m) {fuel : Nat}
    (hfuel : INT_MAX < fuel) (passes : Nat) {i j : BitVec 32} (hij : i.toNat < j.toNat)
    (hj : j.toNat ≤ INT_MAX) (hpasses : INT_MAX < j.toNat * 2 ^ passes)
    (hpresent : i.toNat = 0 ∨ ¬ NilAt hash t i.toNat) {k : Nat} (hk1 : 1 ≤ k) (hk : k ≤ INT_MAX)
    (hnil : NilAt hash t k) :
    ∃ r, unboundLoop hash t fuel passes i j = .ok r ∧ Found (NilAt hash t) r ∧
      r.1.toNat < INT_MAX := by
  have hmax : INT_MAX = 2147483647 := rfl
  induction passes generalizing i j with
  | zero =>
    rw [Nat.pow_zero, Nat.mul_one] at hpasses
    omega
  | succ passes ih =>
    have hfits : ∀ m : BitVec 32, m.toNat ≤ INT_MAX → ∀ u ∈ [Use.getnum m], u.Fits := by
      intro m hm u hu
      rw [List.mem_singleton.mp hu]
      exact hm
    rw [unboundLoop]
    rcases htells j with ⟨htest, hp⟩ | ⟨htest, hp⟩
    · obtain ⟨⟨n, uses⟩, hrun, hfound, hlast⟩ := binarySearch_found (fun m => [.getnum m]) fuel hij
        hj (by omega) (fun m _ _ => htells m) (fun m _ hm => hfits m (by omega)) hpresent hp
      rw [htest]
      refine ⟨_, ?_, hfound.after _ (hfits j hj), Nat.lt_of_lt_of_le hlast hj⟩
      change (binarySearch _ _ fuel i j >>= _) = _
      rw [hrun]
      rfl
    · have htwo : (2 : BitVec 32).toNat = 2 := rfl
      have hdouble : (j * 2).toNat = j.toNat * 2 := by
        rw [BitVec.toNat_mul, htwo, Nat.mod_eq_of_lt (by omega)]
      have huses : ∀ u ∈ [Use.getnum j, Use.value (j.toNat * 2)], u.Fits := by
        intro u hu
        rcases List.mem_cons.mp hu with rfl | hu
        · exact hj
        · rw [List.mem_singleton.mp hu]
          change j.toNat * 2 < 2 ^ 32
          omega
      have hrest : ∃ r, (if (j * 2).toNat > MAX_INT then linearSearch hash t fuel 1
          else unboundLoop hash t fuel passes j (j * 2)) = .ok r ∧ Found (NilAt hash t) r ∧
            r.1.toNat < INT_MAX := by
        by_cases hover : (j * 2).toNat > MAX_INT
        · have hone : (1 : BitVec 32).toNat = 1 := rfl
          obtain ⟨r, hrun, hfound, hlast⟩ := linearSearch_found htells fuel (i := 1) (by omega)
            (by omega) hk (by omega) hnil (.inl rfl)
          rw [if_pos hover]
          exact ⟨r, hrun, hfound, Nat.lt_of_lt_of_le hlast hk⟩
        · have hle : MAX_INT ≤ INT_MAX := Nat.sub_le _ _
          rw [if_neg hover]
          refine ih (by omega) (by omega) ?_ (.inr hp)
          rw [hdouble, Nat.mul_assoc, ← Nat.pow_succ']
          exact hpasses
      obtain ⟨⟨n, uses⟩, hrun, hfound, hlast⟩ := hrest
      rw [htest]
      refine ⟨_, ?_, hfound.after _ huses, hlast⟩
      change ((if (j * 2).toNat > MAX_INT then linearSearch hash t fuel 1
          else unboundLoop hash t fuel passes j (j * 2)) >>= _) = _
      rw [hrun]
      rfl

/-- Where no key is nil the linear search goes past the last `int`. -/
theorem linearSearch_past (htells : ∀ m, Tells (nilGetnum hash t) (NilAt hash t) m) (fuel : Nat)
    {i : BitVec 32} (hi : i.toNat ≤ INT_MAX + 1)
    (hfull : ∀ k, i.toNat ≤ k → k ≤ INT_MAX → ¬ NilAt hash t k) {r : BitVec 32 × List Use}
    (hrun : linearSearch hash t fuel i = .ok r) : ∃ u ∈ r.2, ¬ u.Fits := by
  have hmax : INT_MAX = 2147483647 := rfl
  induction fuel generalizing i r with
  | zero => cases hrun
  | succ fuel ih =>
    rw [linearSearch] at hrun
    by_cases hlast : i.toNat = INT_MAX + 1
    · have hnot : ¬ Use.Fits (.getnum i) := by
        intro hfits
        have hle : i.toNat ≤ INT_MAX := hfits
        omega
      rcases htells i with ⟨htest, -⟩ | ⟨htest, -⟩
      · rw [htest] at hrun
        cases hrun
        exact ⟨_, List.mem_singleton.mpr rfl, hnot⟩
      · rw [htest] at hrun
        change (linearSearch hash t fuel (i + 1) >>= _) = _ at hrun
        cases hnext : linearSearch hash t fuel (i + 1) with
        | error e =>
          rw [hnext] at hrun
          cases hrun
        | ok r' =>
          rw [hnext] at hrun
          cases hrun
          exact ⟨_, List.mem_cons_self, hnot⟩
    · have hone : (1 : BitVec 32).toNat = 1 := rfl
      have hsucc : (i + 1).toNat = i.toNat + 1 := by
        rw [BitVec.toNat_add, hone, Nat.mod_eq_of_lt (by omega)]
      rcases htells i with ⟨-, hp⟩ | ⟨htest, -⟩
      · exact absurd hp (hfull i.toNat (Nat.le_refl _) (by omega))
      · rw [htest] at hrun
        change (linearSearch hash t fuel (i + 1) >>= _) = _ at hrun
        cases hnext : linearSearch hash t fuel (i + 1) with
        | error e =>
          rw [hnext] at hrun
          cases hrun
        | ok r' =>
          obtain ⟨u, hu, hnot⟩ := ih (by omega) (fun k hk => hfull k (by omega)) hnext
          rw [hnext] at hrun
          cases hrun
          exact ⟨u, List.mem_cons_of_mem _ (List.mem_cons_of_mem _ hu), hnot⟩

theorem unboundLoop_past (htells : ∀ m, Tells (nilGetnum hash t) (NilAt hash t) m) {fuel : Nat}
    (passes : Nat) {i j : BitVec 32} (hj1 : 1 ≤ j.toNat) (hj : j.toNat ≤ INT_MAX)
    (hfull : ∀ k, 1 ≤ k → k ≤ INT_MAX → ¬ NilAt hash t k) {r : BitVec 32 × List Use}
    (hrun : unboundLoop hash t fuel passes i j = .ok r) : ∃ u ∈ r.2, ¬ u.Fits := by
  have hmax : INT_MAX = 2147483647 := rfl
  induction passes generalizing i j r with
  | zero => cases hrun
  | succ passes ih =>
    rw [unboundLoop] at hrun
    have htwo : (2 : BitVec 32).toNat = 2 := rfl
    have hdouble : (j * 2).toNat = j.toNat * 2 := by
      rw [BitVec.toNat_mul, htwo, Nat.mod_eq_of_lt (by omega)]
    rcases htells j with ⟨-, hp⟩ | ⟨htest, -⟩
    · exact absurd hp (hfull j.toNat hj1 hj)
    · rw [htest] at hrun
      change ((if (j * 2).toNat > MAX_INT then linearSearch hash t fuel 1
        else unboundLoop hash t fuel passes j (j * 2)) >>= _) = _ at hrun
      have hrest : ∀ r', (if (j * 2).toNat > MAX_INT then linearSearch hash t fuel 1
          else unboundLoop hash t fuel passes j (j * 2)) = .ok r' → ∃ u ∈ r'.2, ¬ u.Fits := by
        intro r' hr'
        by_cases hover : (j * 2).toNat > MAX_INT
        · have hone : (1 : BitVec 32).toNat = 1 := rfl
          rw [if_pos hover] at hr'
          exact linearSearch_past htells fuel (by omega) (fun k hk => hfull k (by omega)) hr'
        · have hle : MAX_INT ≤ INT_MAX := Nat.sub_le _ _
          rw [if_neg hover] at hr'
          exact ih (by omega) (by omega) hr'
      generalize (if (j * 2).toNat > MAX_INT then linearSearch hash t fuel 1
        else unboundLoop hash t fuel passes j (j * 2)) = rest at hrun hrest
      cases rest with
      | error e => cases hrun
      | ok r' =>
        obtain ⟨u, hu, hnot⟩ := hrest r' rfl
        cases hrun
        exact ⟨u, List.mem_cons_of_mem _ (List.mem_cons_of_mem _ hu), hnot⟩

end Searches

section Getn

variable {hash t}

omit [LuaNumber N] in
theorem tells_of_ok {isNil : BitVec 32 → Except Unfinished Bool} {m : BitVec 32} {P : Nat → Prop}
    {r : Except Failure (TValue N)} {v : TValue N} (htest : isNil m = ttisnil r) (hr : r = .ok v)
    (hP : P m.toNat ↔ v = .nil) : Tells isNil P m := by
  rw [hr] at htest
  by_cases hv : v = .nil
  · refine .inl ⟨?_, hP.mpr hv⟩
    rw [htest, ttisnil, (TValue.isNil_iff _).mpr hv]
  · refine .inr ⟨?_, fun hp => hv (hP.mp hp)⟩
    rw [htest, ttisnil, isNil_eq_false hv]

/-- In the array `luaH_getnum` finds the element that the array search looks at. -/
theorem Inv.nilAt_array (h : Inv hash t) {k : Nat} (hpos : 0 < k) (hk : k ≤ t.sizearray) :
    t.read (.array (BitVec.ofNat 32 k - 1).toNat) = .ok (t.array (k - 1)) ∧
      (NilAt hash t k ↔ t.array (k - 1) = .nil) := by
  have hsize := h.sizearray
  have hone : (1 : BitVec 32).toNat = 1 := rfl
  have hnat : (BitVec.ofNat 32 k).toNat = k := BitVec.toNat_ofNat k 32 ▸ Nat.mod_eq_of_lt (by omega)
  have hprev : (BitVec.ofNat 32 k - 1).toNat = k - 1 := by
    rw [BitVec.toNat_sub_of_le (BitVec.le_def.mpr (by omega)), hone, hnat]
  have hlt : k - 1 < t.sizearray := by omega
  have hread : t.read (.array (k - 1)) = .ok (t.array (k - 1)) :=
    if_pos (Nat.lt_of_lt_of_le hlt h.memory)
  rw [NilAt, luaHGetnum, hprev, if_pos hlt]
  refine ⟨hread, ?_⟩
  change t.read (.array (k - 1)) = .ok .nil ↔ _
  rw [hread]
  exact ⟨Except.ok.inj, congrArg Except.ok⟩

theorem Inv.tells_array (h : Inv hash t) {m : BitVec 32} (hpos : 0 < m.toNat)
    (hm : m.toNat ≤ t.sizearray) : Tells (nilArray t) (NilAt hash t) m := by
  obtain ⟨hread, hnil⟩ := h.nilAt_array hpos hm
  rw [BitVec.ofNat_toNat, BitVec.setWidth_eq] at hread
  exact tells_of_ok rfl hread hnil

/-- Where the search of `luaH_getn` goes. -/
theorem Inv.getn_enters (h : Inv hash t) (fuel : Nat) :
    luaHGetn hash t fuel =
      if 0 < t.sizearray ∧ (t.array (t.sizearray - 1)).isNil = true then
        binarySearch (nilArray t) (fun _ => []) fuel 0 (BitVec.ofNat 32 t.sizearray)
      else if t.isDummy then .ok (BitVec.ofNat 32 t.sizearray, [])
      else unboundSearch hash t fuel (BitVec.ofNat 32 t.sizearray) := by
  have hsize := h.sizearray
  have hnat : (BitVec.ofNat 32 t.sizearray).toNat = t.sizearray :=
    BitVec.toNat_ofNat t.sizearray 32 ▸ Nat.mod_eq_of_lt (by omega)
  rw [luaHGetn]
  dsimp only
  by_cases hpos : 0 < t.sizearray
  · have hgt : BitVec.ofNat 32 t.sizearray > 0 := BitVec.lt_def.mpr (by rw [hnat]; exact hpos)
    rw [if_pos hgt, nilArray, (h.nilAt_array hpos (Nat.le_refl _)).1]
    cases hnil : (t.array (t.sizearray - 1)).isNil with
    | true =>
      have hyes : 0 < t.sizearray ∧ true = true := ⟨hpos, rfl⟩
      rw [if_pos hyes, ttisnil, hnil]
      rfl
    | false =>
      have hno : ¬ (0 < t.sizearray ∧ false = true) := fun hc => Bool.false_ne_true hc.2
      rw [if_neg hno, ttisnil, hnil]
      rfl
  · have hzero : ¬ BitVec.ofNat 32 t.sizearray > 0 := by
      intro hgt
      have hlt := BitVec.lt_def.mp hgt
      rw [hnat] at hlt
      exact hpos hlt
    have hno : ¬ (0 < t.sizearray ∧ (t.array (t.sizearray - 1)).isNil = true) := fun hc => hpos hc.1
    rw [if_neg hzero, if_neg hno]
    rfl

variable [LawfulNumber N]

theorem Inv.tells (h : Inv hash t) (hhash : Consistent hash) (m : BitVec 32) :
    Tells (nilGetnum hash t) (NilAt hash t) m := by
  have hkey : (.number (castNum m) : TValue N) ≠ .nil := (proper_castNum m).1
  obtain ⟨v, hv, -⟩ := h.lookup_spec hhash hkey
  rw [lookup, ← luaHGetnum_eq] at hv
  refine tells_of_ok rfl hv ?_
  rw [NilAt, BitVec.ofNat_toNat, BitVec.setWidth_eq, hv]
  exact ⟨Except.ok.inj, congrArg Except.ok⟩

theorem Inv.nilAt_beyond (h : Inv hash t) (hhash : Consistent hash) (hdummy : t.isDummy = true)
    {k : Nat} (hk : t.sizearray < k) (hmax : k ≤ INT_MAX) : NilAt hash t k := by
  have hbound : INT_MAX = 2147483647 := rfl
  obtain ⟨i, rfl⟩ : ∃ i, k = i + 1 := ⟨k - 1, by omega⟩
  have hidx : index (.number (castNum (BitVec.ofNat 32 (i + 1))) : TValue N) = i :=
    index_castNum (by omega)
  have hget := luaHGet_none (t := t) hhash (proper_castNum (BitVec.ofNat 32 (i + 1))).1
    (by rw [hidx]; omega) fun j k' hj => by
      rw [(h.dummy hdummy).2.2 j] at hj
      cases hj
  rw [NilAt, luaHGetnum_eq, hget]
  rfl

/-- With more passes than there are integers `luaH_getn` comes to a boundary. -/
theorem Inv.getn_boundary (h : Inv hash t) (hhash : Consistent hash) (hsize : t.sizearray < INT_MAX)
    (hcond : t.isDummy = true ∨ (0 < t.sizearray ∧ (t.array (t.sizearray - 1)).isNil = true) ∨
      ∃ k, 1 ≤ k ∧ k ≤ INT_MAX ∧ NilAt hash t k) {fuel : Nat} (hfuel : INT_MAX < fuel) :
    ∃ n uses, luaHGetn hash t fuel = .ok (n, uses) ∧ Boundary hash t n.toNat ∧ ∀ u ∈ uses, u.Fits := by
  have hbound : INT_MAX = 2147483647 := rfl
  have hnat : (BitVec.ofNat 32 t.sizearray).toNat = t.sizearray :=
    BitVec.toNat_ofNat t.sizearray 32 ▸ Nat.mod_eq_of_lt (by omega)
  rw [h.getn_enters]
  generalize hj : BitVec.ofNat 32 t.sizearray = j at hnat
  by_cases hlast : 0 < t.sizearray ∧ (t.array (t.sizearray - 1)).isNil = true
  · obtain ⟨hpos, hnil⟩ := hlast
    have hend : NilAt hash t t.sizearray :=
      (h.nilAt_array hpos (Nat.le_refl _)).2.mpr ((TValue.isNil_iff _).mp hnil)
    have hzero : (0 : BitVec 32).toNat = 0 := rfl
    obtain ⟨⟨n, uses⟩, hrun, hfound, hlt⟩ : ∃ r, binarySearch (nilArray t) (fun _ => []) fuel 0 j =
        .ok r ∧ Found (NilAt hash t) r ∧ r.1.toNat < j.toNat :=
      binarySearch_found (fun _ => []) fuel (by omega) (by omega) (by omega)
        (fun m hm hmj => h.tells_array hm (by omega))
        (fun m _ _ u hu => absurd hu List.not_mem_nil) (.inl hzero) (by rw [hnat]; exact hend)
    have hlt : n.toNat < j.toNat := hlt
    rw [if_pos ⟨hpos, hnil⟩]
    exact ⟨n, uses, hrun, ⟨by omega, hfound.present, hfound.absent⟩, hfound.fits⟩
  · have hpresent : t.sizearray = 0 ∨ ¬ NilAt hash t t.sizearray := by
      by_cases hpos : 0 < t.sizearray
      · refine .inr fun hnil => hlast ⟨hpos, (TValue.isNil_iff _).mpr ?_⟩
        exact (h.nilAt_array hpos (Nat.le_refl _)).2.mp hnil
      · exact .inl (by omega)
    rw [if_neg hlast]
    by_cases hdummy : t.isDummy = true
    · rw [if_pos hdummy]
      refine ⟨_, _, rfl, ⟨by omega, ?_, ?_⟩, fun u hu => absurd hu List.not_mem_nil⟩
      · rw [hnat]
        exact hpresent
      · rw [hnat]
        exact h.nilAt_beyond hhash hdummy (Nat.lt_succ_self _) (by omega)
    · obtain ⟨k, hk1, hk, hnil⟩ : ∃ k, 1 ≤ k ∧ k ≤ INT_MAX ∧ NilAt hash t k :=
        (hcond.resolve_left hdummy).resolve_left hlast
      have hone : (1 : BitVec 32).toNat = 1 := rfl
      have hnext : (j + 1).toNat = t.sizearray + 1 := by
        rw [BitVec.toNat_add, hone, hnat, Nat.mod_eq_of_lt (by omega)]
      have hpow : INT_MAX < (j + 1).toNat * 2 ^ fuel := by
        have hself : fuel < 2 ^ fuel := Nat.lt_two_pow_self
        have hmul := Nat.le_mul_of_pos_left (2 ^ fuel) (Nat.succ_pos t.sizearray)
        rw [hnext]
        exact Nat.lt_of_lt_of_le (Nat.lt_trans hfuel hself) hmul
      obtain ⟨⟨n, uses⟩, hrun, hfound, hlt⟩ := unboundLoop_found (h.tells hhash) hfuel fuel
        (i := j) (j := j + 1) (by omega) (by omega) hpow (by rw [hnat]; exact hpresent) hk1 hk hnil
      have hafter := hfound.after [.value (j.toNat + 1)] fun u hu => by
        rw [List.mem_singleton.mp hu]
        change j.toNat + 1 < 2 ^ 32
        omega
      rw [if_neg hdummy, unboundSearch, hrun]
      exact ⟨n, .value (j.toNat + 1) :: uses, rfl, ⟨hlt, hfound.present, hfound.absent⟩, hafter.fits⟩

theorem Inv.getn_correct (h : Inv hash t) (hhash : Consistent hash) (hsize : t.sizearray < INT_MAX)
    (hcond : t.isDummy = true ∨ (0 < t.sizearray ∧ (t.array (t.sizearray - 1)).isNil = true) ∨
      ∃ k, 1 ≤ k ∧ k ≤ INT_MAX ∧ NilAt hash t k) : GetnCorrect hash t := by
  exact ⟨INT_MAX + 1, h.getn_boundary hhash hsize hcond (Nat.lt_succ_self _)⟩

theorem Inv.getn_past (h : Inv hash t) (hhash : Consistent hash) (hsize : t.sizearray < INT_MAX)
    (hdummy : t.isDummy = false)
    (hlast : ¬ (0 < t.sizearray ∧ (t.array (t.sizearray - 1)).isNil = true))
    (hfull : ∀ k, 1 ≤ k → k ≤ INT_MAX → ¬ NilAt hash t k) : ¬ GetnCorrect hash t := by
  have hbound : INT_MAX = 2147483647 := rfl
  intro hcorrect
  obtain ⟨fuel, n, uses, hrun, -, hfits⟩ := hcorrect
  have hnat : (BitVec.ofNat 32 t.sizearray).toNat = t.sizearray :=
    BitVec.toNat_ofNat t.sizearray 32 ▸ Nat.mod_eq_of_lt (by omega)
  have hone : (1 : BitVec 32).toNat = 1 := rfl
  have hnext : (BitVec.ofNat 32 t.sizearray + 1).toNat = t.sizearray + 1 := by
    rw [BitVec.toNat_add, hone, hnat, Nat.mod_eq_of_lt (by omega)]
  rw [h.getn_enters, if_neg hlast, hdummy, if_neg Bool.false_ne_true, unboundSearch] at hrun
  cases hloop : unboundLoop hash t fuel fuel (BitVec.ofNat 32 t.sizearray)
      (BitVec.ofNat 32 t.sizearray + 1) with
  | error e =>
    rw [hloop] at hrun
    cases hrun
  | ok r =>
    obtain ⟨u, hu, hnot⟩ := unboundLoop_past (h.tells hhash) fuel (by omega) (by omega) hfull hloop
    rw [hloop] at hrun
    cases hrun
    exact hnot (hfits u (List.mem_cons_of_mem _ hu))

/-- `luaH_getn` is right but for a table with a hash part in which no key from 1 to `INT_MAX` is nil.
The array has fewer than `INT_MAX` elements because `luaM_reallocv` refuses more. -/
theorem Stores.getn_correct_iff (hhash : Consistent hash) {depth : Nat} (hdepth : 3 ≤ depth)
    {m : TValue N → TValue N} (h : Stores hash depth t m) (hsize : t.sizearray < INT_MAX) :
    GetnCorrect hash t ↔ t.isDummy = true ∨
      (0 < t.sizearray ∧ (t.array (t.sizearray - 1)).isNil = true) ∨
      ∃ k, 1 ≤ k ∧ k ≤ INT_MAX ∧ NilAt hash t k := by
  have hinv := (h.holds hhash hdepth).1
  refine ⟨fun hcorrect => ?_, hinv.getn_correct hhash hsize⟩
  by_contra hcond
  obtain ⟨hdummy, hrest⟩ := not_or.mp hcond
  obtain ⟨hlast, hnone⟩ := not_or.mp hrest
  rw [Bool.not_eq_true] at hdummy
  exact hinv.getn_past hhash hsize hdummy hlast (fun k hk1 hk hnil => hnone ⟨k, hk1, hk, hnil⟩) hcorrect

end Getn

theorem Stores.getn_correct_oneElement :
    GetnCorrect (fun _ => 0) oneElement ↔ oneElement.isDummy = true ∨
      (0 < oneElement.sizearray ∧ (oneElement.array (oneElement.sizearray - 1)).isNil = true) ∨
      ∃ k, 1 ≤ k ∧ k ≤ INT_MAX ∧ NilAt (fun _ => 0) oneElement k :=
  oneElement_stores.getn_correct_iff (fun _ _ _ => rfl) (by decide) (by decide)

/-- The largest array that there can be, with its first `n` elements, and one free node. -/
def filling (n : Nat) : Table Int where
  array i := if i < n then .boolean true else .nil
  allocated := 2147483646
  sizearray := 2147483646
  node _ := emptyNode
  isDummy := false
  lsizenode := 0
  lastfree := 1

theorem filling_new : luaHNew 2147483646 1 = .ok (filling 0) := by
  have harray : (setarrayvector 2147483646
      (⟨fun _ => .nil, 0, 0, fun _ => emptyNode, true, 0, 0⟩ : Table Int)).array =
        (filling 0).array := by
    funext i
    have hnil : (filling 0).array i = .nil := by
      simp only [filling, Nat.not_lt_zero, if_false]
    rw [hnil]
    exact ite_self _
  change Except.ok { filling 0 with array := (setarrayvector 2147483646
    (⟨fun _ => .nil, 0, 0, fun _ => emptyNode, true, 0, 0⟩ : Table Int)).array } = _
  rw [harray]

theorem filling_stores {n : Nat} (hn : n ≤ 2147483646) :
    ∃ m, Stores (fun _ => 0) 3 (filling n) m := by
  induction n with
  | zero => exact ⟨_, .new (by decide) filling_new⟩
  | succ n ih =>
    obtain ⟨m, hm⟩ := ih (Nat.le_of_succ_le hn)
    have hone : (1 : BitVec 32).toNat = 1 := rfl
    have hnat : (BitVec.ofNat 32 (n + 1)).toNat = n + 1 :=
      BitVec.toNat_ofNat (n + 1) 32 ▸ Nat.mod_eq_of_lt (by omega)
    have hprev : (BitVec.ofNat 32 (n + 1) - 1).toNat = n := by
      rw [BitVec.toNat_sub_of_le (BitVec.le_def.mpr (by omega)), hone, hnat]
      rfl
    have hlt : n < (filling n).sizearray := hn
    have hset : luaHSetnum (fun _ => 0) 3 (filling n) (BitVec.ofNat 32 (n + 1)) =
        .ok (.array n, filling n) := by
      simp only [luaHSetnum, setnumWith, luaHGetnum, hprev, hlt, if_true]
    have hwrite : (filling n).write (.boolean true) (.array n) = .ok (filling (n + 1)) := by
      have harray : (fun j => if j = n then .boolean true else (filling n).array j) =
          (filling (n + 1)).array := by
        funext j
        simp only [filling]
        split_ifs <;> first | rfl | omega
      have hroom : n < (filling n).allocated := hn
      rw [Table.write, if_pos hroom, harray]
      rfl
    exact ⟨_, .setnum _ hm hset hwrite⟩

/-- Where every key up to `INT_MAX` has a value the search goes on past `INT_MAX`. -/
theorem getn_past_intMax : ∃ (t : Table Int) (m : TValue Int → TValue Int),
    Stores (fun _ => 0) 3 t m ∧ t.sizearray < INT_MAX ∧ ¬ GetnCorrect (fun _ => 0) t := by
  obtain ⟨m, hm⟩ := filling_stores (Nat.le_refl 2147483646)
  obtain ⟨t1, t, hset, hwrite, hsize, harray, hdummy⟩ : ∃ t1 t : Table Int,
      luaHSetnum (fun _ => 0) 3 (filling 2147483646) 2147483647 = .ok (.node 0, t1) ∧
      t1.write (.boolean true) (.node 0) = .ok t ∧ t.sizearray = 2147483646 ∧
      t.array = (filling 2147483646).array ∧ t.isDummy = false := ⟨_, _, rfl, rfl, rfl, rfl, rfl⟩
  have hhash : Consistent fun _ : TValue Int => 0 := fun _ _ _ => rfl
  have hstores := Stores.setnum (.boolean true) hm hset hwrite
  obtain ⟨hinv, -⟩ := hstores.holds hhash (Nat.le_refl 3)
  have hmax : INT_MAX = 2147483647 := rfl
  have hsome : ∀ i < 2147483646, t.array i = .boolean true := by
    intro i hi
    rw [harray]
    exact if_pos hi
  have hfull : ∀ k, 1 ≤ k → k ≤ INT_MAX → ¬ NilAt (fun _ => 0) t k := by
    intro k hk1 hk hnil
    by_cases hin : k ≤ t.sizearray
    · have hval := (hinv.nilAt_array hk1 hin).2.mp hnil
      rw [hsome (k - 1) (by omega)] at hval
      cases hval
    · have hlast : k = 2147483647 := by omega
      have hlookup := hstores.lookup_last hhash (Nat.le_refl 3) (.number (castNum 2147483647))
      have hself : luaORawequalObj (.number (castNum 2147483647) : TValue Int)
          (.number (castNum 2147483647)) = true := castNum_eq 2147483647
      rw [store, if_pos hself, lookup, ← luaHGetnum_eq] at hlookup
      subst hlast
      rw [NilAt] at hnil
      cases hnil.symm.trans hlookup
  have hlast : ¬ (0 < t.sizearray ∧ (t.array (t.sizearray - 1)).isNil = true) := by
    intro hc
    rw [hsome (t.sizearray - 1) (by omega)] at hc
    cases hc.2
  exact ⟨t, _, hstores, by omega, hinv.getn_past hhash (by omega) hdummy hlast hfull⟩

end UgmeeLua.Ltable

import Mathlib.Data.Nat.Notation

namespace UgmeeLua

/-! ## The bits of `marked` -/

def bitmask (b : Nat) : BitVec 8 := 1 <<< b

def WHITE0BIT : Nat := 0
def WHITE1BIT : Nat := 1
def BLACKBIT : Nat := 2
def FINALIZEDBIT : Nat := 3
def KEYWEAKBIT : Nat := 3
def VALUEWEAKBIT : Nat := 4
def FIXEDBIT : Nat := 5
def SFIXEDBIT : Nat := 6

def WHITEBITS : BitVec 8 := bitmask WHITE0BIT ||| bitmask WHITE1BIT

def testbit (marked : BitVec 8) (b : Nat) : Bool := marked &&& bitmask b ≠ 0

def iswhite (marked : BitVec 8) : Bool := marked &&& WHITEBITS ≠ 0

def isblack (marked : BitVec 8) : Bool := testbit marked BLACKBIT

def isgray (marked : BitVec 8) : Bool := !isblack marked && !iswhite marked

def maskmarks : BitVec 8 := ~~~(bitmask BLACKBIT ||| WHITEBITS)

/-- `luaC_white`. -/
def luaCWhite (currentwhite : BitVec 8) : BitVec 8 := currentwhite &&& WHITEBITS

def otherwhite (currentwhite : BitVec 8) : BitVec 8 := currentwhite ^^^ WHITEBITS

def isdead (currentwhite marked : BitVec 8) : Bool := marked &&& otherwhite currentwhite &&& WHITEBITS ≠ 0

def changewhite (marked : BitVec 8) : BitVec 8 := marked ^^^ WHITEBITS

def makewhite (currentwhite marked : BitVec 8) : BitVec 8 := (marked &&& maskmarks) ||| luaCWhite currentwhite

/-- `white2gray`, and `stringmark`. -/
def white2gray (marked : BitVec 8) : BitVec 8 := marked &&& ~~~WHITEBITS

def gray2black (marked : BitVec 8) : BitVec 8 := marked ||| bitmask BLACKBIT

def black2gray (marked : BitVec 8) : BitVec 8 := marked &&& ~~~bitmask BLACKBIT

def isfinalized (marked : BitVec 8) : Bool := testbit marked FINALIZEDBIT

def markfinalized (marked : BitVec 8) : BitVec 8 := marked ||| bitmask FINALIZEDBIT

/-- The bits for a table that has weak keys, or weak values. -/
def setweak (weakkey weakvalue : Bool) (marked : BitVec 8) : BitVec 8 :=
  (marked &&& ~~~(bitmask KEYWEAKBIT ||| bitmask VALUEWEAKBIT)) |||
    ((if weakkey then bitmask KEYWEAKBIT else 0) ||| if weakvalue then bitmask VALUEWEAKBIT else 0)

/-- The test of `sweeplist`: an object is kept. -/
def survives (currentwhite marked : BitVec 8) : Bool := (marked ^^^ WHITEBITS) &&& otherwhite currentwhite ≠ 0

/-- A collector that uses one of the two whites, with the bit of fixed objects beside it, as `lua_newstate`
sets it. -/
def OneWhite (currentwhite : BitVec 8) : Prop :=
  currentwhite = bitmask WHITE0BIT ||| bitmask FIXEDBIT ∨
    currentwhite = bitmask WHITE1BIT ||| bitmask FIXEDBIT

/-- The bits of the colour are those of a new object. -/
def isfresh (currentwhite marked : BitVec 8) : Prop := marked &&& ~~~maskmarks = luaCWhite currentwhite

instance (currentwhite marked : BitVec 8) : Decidable (isfresh currentwhite marked) :=
  inferInstanceAs (Decidable (_ = _))

section Bits

variable {m k : BitVec 8}

/-! What a mask keeps, clears and adds, among the bits of `k`. -/

theorem kept_and {keep : BitVec 8} (h : keep &&& k = k) : m &&& keep &&& k = m &&& k := by
  rw [BitVec.and_assoc, h]

theorem cleared_and {keep : BitVec 8} (h : keep &&& k = 0) : m &&& keep &&& k = 0 := by
  rw [BitVec.and_assoc, h]
  exact BitVec.and_zero

theorem xor_and (x y : BitVec 8) : (x ^^^ y) &&& k = (x &&& k) ^^^ (y &&& k) := by
  ext i hi
  simp only [BitVec.getElem_and, BitVec.getElem_xor, Bool.and_xor_distrib_right]

theorem kept_or {add : BitVec 8} (h : add &&& k = 0) : (m ||| add) &&& k = m &&& k := by
  rw [BitVec.and_or_distrib_right, h]
  exact BitVec.or_zero

theorem added_or {add : BitVec 8} (h : add &&& k = k) : (m ||| add) &&& k = k := by
  rw [BitVec.and_or_distrib_right, h]
  ext i hi
  simp

theorem kept_not {x : BitVec 8} (h : x &&& k = 0) : ~~~x &&& k = k := by
  ext i hi
  have hbit := congrArg (fun y : BitVec 8 => y[i]) h
  simp only [BitVec.getElem_and, BitVec.getElem_not] at hbit ⊢
  cases hx : x[i] <;> simp_all

@[simp] theorem iswhite_white2gray : iswhite (white2gray m) = false := by
  rw [iswhite, white2gray, cleared_and (by decide)]
  rfl

@[simp] theorem isblack_white2gray : isblack (white2gray m) = isblack m := by
  rw [isblack, testbit, white2gray, kept_and (by decide)]
  rfl

theorem white2gray_of_not_white (h : iswhite m = false) : white2gray m = m := by
  have hnone : WHITEBITS &&& m = 0 := by
    rw [BitVec.and_comm]
    simpa [iswhite] using h
  rw [white2gray, BitVec.and_comm, kept_not hnone]

@[simp] theorem iswhite_gray2black : iswhite (gray2black m) = iswhite m := by
  rw [iswhite, gray2black, kept_or (by decide)]
  rfl

@[simp] theorem isblack_gray2black : isblack (gray2black m) = true := by
  rw [isblack, testbit, gray2black, added_or (by decide)]
  decide

@[simp] theorem iswhite_black2gray : iswhite (black2gray m) = iswhite m := by
  rw [iswhite, black2gray, kept_and (by decide)]
  rfl

@[simp] theorem isblack_black2gray : isblack (black2gray m) = false := by
  rw [isblack, testbit, black2gray, cleared_and (by decide)]
  rfl

theorem black2gray_gray2black (h : isblack m = false) : black2gray (gray2black m) = m := by
  have hnone : bitmask BLACKBIT &&& m = 0 := by
    rw [BitVec.and_comm]
    simpa [isblack, testbit] using h
  rw [black2gray, gray2black, kept_or (by decide), BitVec.and_comm, kept_not hnone]

@[simp] theorem iswhite_markfinalized : iswhite (markfinalized m) = iswhite m := by
  rw [iswhite, markfinalized, kept_or (by decide)]
  rfl

@[simp] theorem isblack_markfinalized : isblack (markfinalized m) = isblack m := by
  rw [isblack, testbit, markfinalized, kept_or (by decide)]
  rfl

@[simp] theorem isfinalized_markfinalized : isfinalized (markfinalized m) = true := by
  rw [isfinalized, testbit, markfinalized, added_or (by decide)]
  decide

theorem kept_setweak (a b : Bool) (h : (bitmask KEYWEAKBIT ||| bitmask VALUEWEAKBIT) &&& k = 0) :
    setweak a b m &&& k = m &&& k := by
  have hweak : (if a then bitmask KEYWEAKBIT else 0) ||| (if b then bitmask VALUEWEAKBIT else 0) =
      (bitmask KEYWEAKBIT ||| bitmask VALUEWEAKBIT) &&&
        ((if a then bitmask KEYWEAKBIT else 0) ||| if b then bitmask VALUEWEAKBIT else 0) := by
    cases a <;> cases b <;> decide
  rw [setweak, hweak, kept_or, kept_and (kept_not h)]
  rw [BitVec.and_comm, ← BitVec.and_assoc, BitVec.and_comm k, h]
  exact BitVec.zero_and

@[simp] theorem iswhite_setweak (a b : Bool) : iswhite (setweak a b m) = iswhite m := by
  rw [iswhite, kept_setweak a b (by decide)]
  rfl

@[simp] theorem isblack_setweak (a b : Bool) : isblack (setweak a b m) = isblack m := by
  rw [isblack, testbit, kept_setweak a b (by decide)]
  rfl

@[simp] theorem keyweak_setweak (a b : Bool) : testbit (setweak a b m) KEYWEAKBIT = a := by
  rw [testbit, setweak, BitVec.and_or_distrib_right, cleared_and (by decide)]
  cases a <;> cases b <;> decide

@[simp] theorem valueweak_setweak (a b : Bool) : testbit (setweak a b m) VALUEWEAKBIT = b := by
  rw [testbit, setweak, BitVec.and_or_distrib_right, cleared_and (by decide)]
  cases a <;> cases b <;> decide

@[simp] theorem keyweak_black2gray : testbit (black2gray m) KEYWEAKBIT = testbit m KEYWEAKBIT := by
  rw [testbit, black2gray, kept_and (by decide)]
  rfl

@[simp] theorem valueweak_black2gray : testbit (black2gray m) VALUEWEAKBIT = testbit m VALUEWEAKBIT := by
  rw [testbit, black2gray, kept_and (by decide)]
  rfl

@[simp] theorem fixed_white2gray : testbit (white2gray m) FIXEDBIT = testbit m FIXEDBIT := by
  rw [testbit, white2gray, kept_and (by decide)]
  rfl

@[simp] theorem fixed_gray2black : testbit (gray2black m) FIXEDBIT = testbit m FIXEDBIT := by
  rw [testbit, gray2black, kept_or (by decide)]
  rfl

@[simp] theorem fixed_black2gray : testbit (black2gray m) FIXEDBIT = testbit m FIXEDBIT := by
  rw [testbit, black2gray, kept_and (by decide)]
  rfl

@[simp] theorem fixed_setweak (a b : Bool) : testbit (setweak a b m) FIXEDBIT = testbit m FIXEDBIT := by
  rw [testbit, kept_setweak a b (by decide)]
  rfl

@[simp] theorem isfinalized_white2gray : isfinalized (white2gray m) = isfinalized m := by
  rw [isfinalized, testbit, white2gray, kept_and (by decide)]
  rfl

@[simp] theorem isfinalized_gray2black : isfinalized (gray2black m) = isfinalized m := by
  rw [isfinalized, testbit, gray2black, kept_or (by decide)]
  rfl

/-- The bits that are no colour are kept. -/
theorem testbit_makewhite (w : BitVec 8) {b : Nat} (hmask : maskmarks &&& bitmask b = bitmask b)
    (hwhite : WHITEBITS &&& bitmask b = 0) : testbit (makewhite w m) b = testbit m b := by
  have hcolour : luaCWhite w &&& bitmask b = 0 := cleared_and hwhite
  rw [testbit, makewhite, kept_or hcolour, kept_and hmask]
  rfl

@[simp] theorem fixed_makewhite (w : BitVec 8) : testbit (makewhite w m) FIXEDBIT = testbit m FIXEDBIT :=
  testbit_makewhite w (by decide) (by decide)

@[simp] theorem isfinalized_makewhite (w : BitVec 8) : isfinalized (makewhite w m) = isfinalized m :=
  testbit_makewhite w (by decide) (by decide)

end Bits

section OneWhite

variable {w m : BitVec 8}

theorem OneWhite.otherwhite (h : OneWhite w) : OneWhite (otherwhite w) := by
  rcases h with rfl | rfl
  · exact .inr (by decide)
  · exact .inl (by decide)

theorem OneWhite.survives_of_alive (h : OneWhite w) (hm : isdead w m = false) : survives w m = true := by
  rcases h with rfl | rfl
  · revert hm
    revert m
    decide
  · revert hm
    revert m
    decide

theorem OneWhite.alive_changewhite (h : OneWhite w) (hm : isdead w m = true) :
    isdead w (changewhite m) = false := by
  rcases h with rfl | rfl
  · revert hm
    revert m
    decide
  · revert hm
    revert m
    decide

theorem OneWhite.survives_makewhite (h : OneWhite w) : survives w (makewhite w m) = true := by
  rcases h with rfl | rfl
  · revert m
    decide
  · revert m
    decide

theorem OneWhite.survives_white2gray (h : OneWhite w) : survives w (white2gray m) = true := by
  rcases h with rfl | rfl
  · revert m
    decide
  · revert m
    decide

theorem OneWhite.survives_fix (h : OneWhite w) : survives w (m ||| bitmask FIXEDBIT) = true := by
  rcases h with rfl | rfl
  · revert m
    decide
  · revert m
    decide

theorem OneWhite.otherwhite_otherwhite (h : OneWhite w) : UgmeeLua.otherwhite (UgmeeLua.otherwhite w) = w := by
  rcases h with rfl | rfl <;> decide

theorem isdead_of_not_white (h : iswhite m = false) : isdead w m = false := by
  have hnone : m &&& WHITEBITS = 0 := by simpa [iswhite] using h
  rw [isdead, BitVec.and_assoc, BitVec.and_comm (UgmeeLua.otherwhite w), ← BitVec.and_assoc, hnone]
  simp

/-! ### New objects -/

theorem isfresh.and {k : BitVec 8} (h : isfresh w m) (hk : ~~~maskmarks &&& k = k) : m &&& k = luaCWhite w &&& k := by
  rw [← h, BitVec.and_assoc, hk]

theorem isfresh_luaCWhite (h : OneWhite w) : isfresh w (luaCWhite w) := by
  rcases h with rfl | rfl <;> decide

theorem fixed_luaCWhite : testbit (luaCWhite w) FIXEDBIT = false := by
  rw [testbit, luaCWhite, cleared_and (by decide)]
  decide

/-- An object that is white from the cycle before is swept, but for the fixed ones. -/
theorem OneWhite.survives_dead (h : OneWhite w) (hd : isfresh (UgmeeLua.otherwhite w) m)
    (hfix : testbit m FIXEDBIT = false) : survives w m = false := by
  have hbit : m &&& bitmask FIXEDBIT = 0 := by simpa [testbit] using hfix
  have hcolour : m &&& WHITEBITS = luaCWhite (UgmeeLua.otherwhite w) := by
    have hboth := congrArg (· &&& WHITEBITS) hd
    simp only [BitVec.and_assoc, show ~~~maskmarks &&& WHITEBITS = WHITEBITS by decide] at hboth
    rw [hboth, luaCWhite, BitVec.and_assoc, BitVec.and_self]
  have hboth : (m ^^^ WHITEBITS) &&& (WHITEBITS ||| bitmask FIXEDBIT) = luaCWhite w := by
    have hsplit : ∀ x : BitVec 8, x &&& (WHITEBITS ||| bitmask FIXEDBIT) =
        (x &&& WHITEBITS) ||| (x &&& bitmask FIXEDBIT) := fun x => BitVec.and_or_distrib_left
    rw [hsplit, xor_and, xor_and, hcolour, hbit]
    rcases h with rfl | rfl <;> decide
  have hmask : UgmeeLua.otherwhite w = (WHITEBITS ||| bitmask FIXEDBIT) &&& UgmeeLua.otherwhite w := by
    rcases h with rfl | rfl <;> decide
  rw [survives, hmask, ← BitVec.and_assoc, hboth]
  rcases h with rfl | rfl <;> decide

theorem isfresh_makewhite (h : OneWhite w) : isfresh w (makewhite w m) := by
  rw [isfresh, makewhite, BitVec.and_or_distrib_right, cleared_and (by decide)]
  rcases h with rfl | rfl <;> decide

theorem isfresh.white (hm : isfresh w m) (h : OneWhite w) : iswhite m = true := by
  rw [iswhite, hm.and (by decide)]
  rcases h with rfl | rfl <;> decide

theorem isfresh.notblack (hm : isfresh w m) (h : OneWhite w) : isblack m = false := by
  rw [isblack, testbit, hm.and (by decide)]
  rcases h with rfl | rfl <;> decide

theorem isfresh.isdead (hm : isfresh w m) (h : OneWhite w) {w' : BitVec 8} :
    isdead w' m = UgmeeLua.isdead w' (luaCWhite w) := by
  have hcolour : m &&& WHITEBITS = luaCWhite w := by
    rw [hm.and (by decide)]
    rcases h with rfl | rfl <;> decide
  have hself : luaCWhite w &&& WHITEBITS = luaCWhite w := by rcases h with rfl | rfl <;> decide
  have hswap : ∀ x : BitVec 8, x &&& UgmeeLua.otherwhite w' &&& WHITEBITS =
      x &&& WHITEBITS &&& UgmeeLua.otherwhite w' := fun x => by
    rw [BitVec.and_assoc, BitVec.and_comm (UgmeeLua.otherwhite w'), BitVec.and_assoc]
  rw [UgmeeLua.isdead, UgmeeLua.isdead, hswap, hswap, hcolour, hself]

theorem isfresh.alive (hm : isfresh w m) (h : OneWhite w) : UgmeeLua.isdead w m = false := by
  rw [hm.isdead h]
  rcases h with rfl | rfl <;> decide

theorem isfresh.dead (hm : isfresh w m) (h : OneWhite w) : UgmeeLua.isdead (UgmeeLua.otherwhite w) m = true := by
  rw [hm.isdead h]
  rcases h with rfl | rfl <;> decide

theorem isfresh.not_other (hm : isfresh w m) (h : OneWhite w) : ¬ isfresh (UgmeeLua.otherwhite w) m := fun hd => by
  have hdead := isfresh.dead hd h.otherwhite
  rw [h.otherwhite_otherwhite, hm.alive h] at hdead
  cases hdead

theorem isfresh.changewhite (hm : isfresh (UgmeeLua.otherwhite w) m) (h : OneWhite w) :
    isfresh w (UgmeeLua.changewhite m) := by
  rw [isfresh, UgmeeLua.changewhite, xor_and, hm]
  rcases h with rfl | rfl <;> decide

theorem isfresh.or {k : BitVec 8} (hm : isfresh w m) (hk : k &&& ~~~maskmarks = 0) : isfresh w (m ||| k) :=
  (kept_or hk).trans hm

end OneWhite

end UgmeeLua

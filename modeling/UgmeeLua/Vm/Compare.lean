import UgmeeLua.Lib.Loop
import UgmeeLua.Ltable.Table
import UgmeeLua.Vm.Metamethod

namespace UgmeeLua

open Loop Ltable

/-- A read behind the NUL that ends a string, or a comparison that does not end. -/
inductive CompareFault where
  | outside
  | stuck
  deriving DecidableEq, Repr

/-- `getstr`: the bytes of a string, and the NUL behind them. -/
def getstr (s : Bytes) : Bytes := s ++ [0]

/-- `strcoll` in the C locale, that is `strcmp` on unsigned bytes. -/
def strcoll : Bytes → Bytes → Except CompareFault Int
  | a :: l, b :: r =>
    if a = b then if a = 0 then .ok 0 else strcoll l r
    else .ok ((a.toNat : Int) - b.toNat)
  | _, _ => .error .outside

/-- `strlen`. -/
def strlen : Bytes → Except CompareFault Nat
  | a :: l => if a = 0 then .ok 0 else (strlen l).map (· + 1)
  | [] => .error .outside

/-- The variables of the loop of `l_strcmp`: two pointers, and the bytes that are left behind them. -/
structure Compared where
  l : Bytes
  ll : Nat
  r : Bytes
  lr : Nat

def lStrcmpPass (s : Compared) : Except CompareFault (Pass Compared Int) := do
  let temp ← strcoll s.l s.r
  if temp ≠ 0 then .ok (.done temp)
  else do
    let len ← strlen s.l
    if len = s.lr then .ok (.done (if len = s.ll then 0 else 1))
    else if len = s.ll then .ok (.done (-1))
    else
      -- both are longer, and go on behind the NUL
      let len := len + 1
      .ok (.again ⟨s.l.drop len, s.ll - len, s.r.drop len, s.lr - len⟩)

/-- `l_strcmp`. -/
def lStrcmp (ls rs : Bytes) : Except CompareFault Int :=
  loop Compared.ll .stuck lStrcmpPass ⟨getstr ls, ls.length, getstr rs, rs.length⟩

section Strings

variable {x y z : Bytes}

theorem lt_or_eq_or_gt (x y : Bytes) : x < y ∨ x = y ∨ y < x := by
  by_cases hlt : x < y
  · exact .inl hlt
  · by_cases hgt : y < x
    · exact .inr (.inr hgt)
    · exact .inr (.inl (List.le_antisymm hgt hlt))

theorem append_lt_append (c : Bytes) : c ++ x < c ++ y ↔ x < y := by
  constructor
  · intro h
    rcases lt_or_eq_or_gt x y with hlt | heq | hgt
    · exact hlt
    · rw [heq] at h
      exact absurd h (List.lt_irrefl _)
    · exact absurd h (List.lt_asymm (List.append_left_lt hgt))
  · exact List.append_left_lt

/-- A number tells the order of two strings. -/
structure TellsOrder (n : Int) (x y : Bytes) : Prop where
  neg : n < 0 ↔ x < y
  zero : n = 0 ↔ x = y
  pos : 0 < n ↔ y < x

theorem TellsOrder.of_lt {n : Int} (hn : n < 0) (h : x < y) : TellsOrder n x y := by
  refine ⟨iff_of_true hn h, iff_of_false hn.ne fun heq => ?_, iff_of_false hn.le.not_gt (List.lt_asymm h)⟩
  rw [heq] at h
  exact List.lt_irrefl y h

theorem TellsOrder.of_gt {n : Int} (hn : 0 < n) (h : y < x) : TellsOrder n x y := by
  refine ⟨iff_of_false hn.le.not_gt (List.lt_asymm h), iff_of_false hn.ne' fun heq => ?_, iff_of_true hn h⟩
  rw [heq] at h
  exact List.lt_irrefl y h

theorem TellsOrder.refl (x : Bytes) : TellsOrder 0 x x :=
  ⟨iff_of_false (lt_irrefl 0) (List.lt_irrefl x), iff_of_true rfl rfl,
    iff_of_false (lt_irrefl 0) (List.lt_irrefl x)⟩

/-- A common beginning does not matter. -/
theorem TellsOrder.append {n : Int} (c : Bytes) (h : TellsOrder n x y) : TellsOrder n (c ++ x) (c ++ y) :=
  ⟨h.neg.trans (append_lt_append c).symm, h.zero.trans (List.append_right_inj c).symm,
    h.pos.trans (append_lt_append c).symm⟩

/-- The bytes before the first NUL. -/
def chunk (x : Bytes) : Bytes := x.takeWhile (· ≠ 0)

theorem chunk_nul {a : UInt8} (ha : a = 0) (x : Bytes) : chunk (a :: x) = [] := by
  simp [chunk, ha]

theorem chunk_cons {a : UInt8} (ha : a ≠ 0) (x : Bytes) : chunk (a :: x) = a :: chunk x := by
  simp [chunk, ha]

/-- A string ends with its first chunk, or goes on behind a NUL. -/
theorem chunk_cases (x : Bytes) : x = chunk x ∨ ∃ x', x = chunk x ++ 0 :: x' := by
  induction x with
  | nil => exact .inl rfl
  | cons a x ih =>
    by_cases ha : a = 0
    · rw [chunk_nul ha, ha]
      exact .inr ⟨x, rfl⟩
    · rw [chunk_cons ha]
      rcases ih with heq | ⟨x', heq⟩
      · exact .inl (congrArg (a :: ·) heq)
      · exact .inr ⟨x', congrArg (a :: ·) heq⟩

theorem strlen_getstr (x : Bytes) : strlen (getstr x) = .ok (chunk x).length := by
  induction x with
  | nil => rfl
  | cons a x ih =>
    by_cases ha : a = 0
    · rw [chunk_nul ha]
      simp [getstr, strlen, ha]
    · rw [chunk_cons ha, getstr, List.cons_append, strlen, if_neg ha, ← getstr, ih]
      rfl

theorem sub_toNat_neg {a b : UInt8} (h : a < b) : (a.toNat : Int) - b.toNat < 0 := by
  have hlt := UInt8.lt_iff_toNat_lt.mp h
  omega

theorem sub_toNat_pos {a b : UInt8} (h : b < a) : 0 < (a.toNat : Int) - b.toNat := by
  have hlt := UInt8.lt_iff_toNat_lt.mp h
  omega

theorem pos_of_ne_zero {a : UInt8} (ha : a ≠ 0) : 0 < a := by
  have hne : a.toNat ≠ 0 := fun h => ha (UInt8.toNat_inj.mp h)
  exact UInt8.lt_iff_toNat_lt.mpr (Nat.pos_of_ne_zero hne)

/-- `strcmp` tells the order of the strings, or finds them equal up to a NUL. -/
theorem strcoll_getstr (x y : Bytes) : ∃ t, strcoll (getstr x) (getstr y) = .ok t ∧
    (t ≠ 0 → TellsOrder t x y) ∧ (t = 0 → chunk x = chunk y) := by
  induction x generalizing y with
  | nil =>
    cases y with
    | nil => exact ⟨0, rfl, fun h => absurd rfl h, fun _ => rfl⟩
    | cons b y =>
      by_cases hb : b = 0
      · refine ⟨0, ?_, fun h => absurd rfl h, fun _ => (chunk_nul hb y).symm⟩
        simp [getstr, strcoll, hb]
      · have hneg := sub_toNat_neg (pos_of_ne_zero hb)
        refine ⟨_, ?_, fun _ => TellsOrder.of_lt hneg (List.nil_lt_cons b y), fun h => absurd h hneg.ne⟩
        simp [getstr, strcoll, Ne.symm hb]
  | cons a x ih =>
    cases y with
    | nil =>
      by_cases ha : a = 0
      · refine ⟨0, ?_, fun h => absurd rfl h, fun _ => chunk_nul ha x⟩
        simp [getstr, strcoll, ha]
      · have hpos := sub_toNat_pos (pos_of_ne_zero ha)
        refine ⟨_, ?_, fun _ => TellsOrder.of_gt hpos (List.nil_lt_cons a x), fun h => absurd h hpos.ne'⟩
        simp [getstr, strcoll, ha]
    | cons b y =>
      have hcons : strcoll (getstr (a :: x)) (getstr (b :: y)) =
          if a = b then if a = 0 then .ok 0 else strcoll (getstr x) (getstr y)
          else .ok ((a.toNat : Int) - b.toNat) := rfl
      rw [hcons]
      by_cases hab : a = b
      · subst hab
        by_cases ha : a = 0
        · refine ⟨0, by rw [if_pos rfl, if_pos ha], fun h => absurd rfl h, fun _ => ?_⟩
          rw [chunk_nul ha, chunk_nul ha]
        · obtain ⟨t, ht, htells, hchunk⟩ := ih y
          refine ⟨t, by rw [if_pos rfl, if_neg ha, ht], fun h => (htells h).append [a], fun h => ?_⟩
          rw [chunk_cons ha, chunk_cons ha, hchunk h]
      · rw [if_neg hab]
        rcases UInt8.lt_or_lt_of_ne hab with hlt | hgt
        · have hneg := sub_toNat_neg hlt
          exact ⟨_, rfl, fun _ => TellsOrder.of_lt hneg (List.cons_lt_cons_iff.mpr (.inl hlt)),
            fun h => absurd h hneg.ne⟩
        · have hpos := sub_toNat_pos hgt
          exact ⟨_, rfl, fun _ => TellsOrder.of_gt hpos (List.cons_lt_cons_iff.mpr (.inl hgt)),
            fun h => absurd h hpos.ne'⟩

/-- What is left of both strings has the order that they have. -/
def SameOrder (x y : Bytes) (s : Compared) : Prop :=
  ∃ x' y', s.l = getstr x' ∧ s.ll = x'.length ∧ s.r = getstr y' ∧ s.lr = y'.length ∧
    ∀ n, TellsOrder n x' y' → TellsOrder n x y

theorem getstr_behind (c x : Bytes) : (getstr (c ++ 0 :: x)).drop (c.length + 1) = getstr x := by
  have hsplit : getstr (c ++ 0 :: x) = (c ++ [0]) ++ getstr x := by simp [getstr]
  have hlength : (c ++ [(0 : UInt8)]).length = c.length + 1 := by simp
  rw [hsplit, ← hlength, List.drop_left]

theorem lt_append_nul (c x : Bytes) : c < c ++ 0 :: x := by
  have h : c ++ [] < c ++ 0 :: x := List.append_left_lt (List.nil_lt_cons 0 x)
  rwa [List.append_nil] at h

/-- `l_strcmp` tells the order of the strings. -/
theorem lStrcmp_tells (x y : Bytes) : ∃ n, lStrcmp x y = .ok n ∧ TellsOrder n x y := by
  refine ok_of_meets (meets_loop (SameOrder x y) (fun s h => ?_)
    ⟨x, y, rfl, rfl, rfl, rfl, fun _ h => h⟩)
  obtain ⟨l, ll, r, lr⟩ := s
  obtain ⟨x', y', hl, hll, hr, hlr, hsame⟩ := h
  simp only at hl hll hr hlr
  subst hl hll hr hlr
  obtain ⟨t, ht, htells, hchunk⟩ := strcoll_getstr x' y'
  simp only [lStrcmpPass, ht, ok_bind]
  by_cases ht0 : t = 0
  · have hc := hchunk ht0
    rw [if_neg (not_not.mpr ht0), strlen_getstr, ok_bind]
    rcases chunk_cases x' with hx | ⟨x'', hx⟩
    · rcases chunk_cases y' with hy | ⟨y'', hy⟩
      · -- both are finished
        have heq : x' = y' := by rw [hx, hy, hc]
        rw [if_pos (by rw [heq, ← hy]), if_pos (by rw [← hx])]
        refine meets_ok (hsame 0 ?_)
        rw [heq]
        exact TellsOrder.refl y'
      · rw [← hc, ← hx] at hy
        have hlong : x'.length ≠ y'.length := by
          rw [hy, List.length_append, List.length_cons]
          omega
        rw [← hx, if_neg hlong, if_pos rfl]
        refine meets_ok (hsame _ (TellsOrder.of_lt (by decide) ?_))
        rw [hy]
        exact lt_append_nul x' y''
    · rcases chunk_cases y' with hy | ⟨y'', hy⟩
      · rw [hc, ← hy] at hx
        have hlong : y'.length ≠ x'.length := by
          rw [hx, List.length_append, List.length_cons]
          omega
        rw [hc, ← hy, if_pos rfl, if_neg hlong]
        refine meets_ok (hsame _ (TellsOrder.of_gt (by decide) ?_))
        rw [hx]
        exact lt_append_nul y' x''
      · -- both go on behind the NUL
        rw [← hc] at hy
        generalize chunk x' = c at hx hy ⊢
        subst hx hy
        simp only [List.length_append, List.length_cons]
        rw [if_neg (by omega), if_neg (by omega)]
        refine meets_ok ⟨⟨x'', y'', getstr_behind c x'', ?_, getstr_behind c y'', ?_, fun n h => ?_⟩, ?_⟩
        · simp only
          omega
        · simp only
          omega
        · exact hsame n ((h.append [0]).append c)
        · simp only
          omega
  · rw [if_pos ht0]
    exact meets_ok (hsame t (htells ht0))

end Strings

/-! ## Order of values -/

/-- What a comparison comes to: a truth value, the result of a tag method as one (or its negation), or
`luaG_ordererror`. -/
inductive OrderResult (N : Type) where
  | value (b : Bool)
  | callTMres (f p1 p2 : TValue N) (negate : Bool)
  | ordererror (p1 p2 : TValue N)
  | fault (e : CompareFault)
  deriving DecidableEq, Repr

section Order

variable {N : Type} [LuaNumber N]

/-- The tag method of `call_orderTM`, which returns -1 where there is none. -/
def callOrderTM (h : Heap N) (p1 p2 : TValue N) (event : TMS) : Option (TValue N) :=
  let tm1 := luaTGettmbyobj h p1 event
  if tm1.isNil then none
  else if luaORawequalObj tm1 (luaTGettmbyobj h p2 event) then some tm1 else none

/-- A comparison of two strings. -/
def compareStrings (test : Int → Bool) (x y : Bytes) : OrderResult N :=
  match lStrcmp x y with
  | .ok n => .value (test n)
  | .error e => .fault e

/-- `luaV_lessthan`. -/
def luaVLessthan (h : Heap N) (l r : TValue N) : OrderResult N :=
  if l.ttype ≠ r.ttype then .ordererror l r
  else
    match l, r with
    | .number a, .number b => .value (luaiNumlt a b)
    | .string x, .string y => compareStrings (· < 0) x y
    | l, r =>
      match callOrderTM h l r .TM_LT with
      | some tm => .callTMres tm l r false
      | none => .ordererror l r

/-- `lessequal`. -/
def lessequal (h : Heap N) (l r : TValue N) : OrderResult N :=
  if l.ttype ≠ r.ttype then .ordererror l r
  else
    match l, r with
    | .number a, .number b => .value (luaiNumle a b)
    | .string x, .string y => compareStrings (· ≤ 0) x y
    | l, r =>
      match callOrderTM h l r .TM_LE with
      | some tm => .callTMres tm l r false
      | none =>
        match callOrderTM h r l .TM_LT with
        | some tm => .callTMres tm r l true
        | none => .ordererror l r

theorem luaVLessthan_strings (h : Heap N) (x y : Bytes) :
    luaVLessthan h (.string x) (.string y) = .value (decide (x < y)) := by
  obtain ⟨n, hn, htells⟩ := lStrcmp_tells x y
  have hsame : decide (n < 0) = decide (x < y) := decide_eq_decide.mpr htells.neg
  simp only [luaVLessthan, TValue.ttype, compareStrings, hn, ne_eq, not_true_eq_false, if_false, hsame]

theorem lessequal_strings (h : Heap N) (x y : Bytes) :
    lessequal h (.string x) (.string y) = .value (decide (x ≤ y)) := by
  obtain ⟨n, hn, htells⟩ := lStrcmp_tells x y
  have hle : n ≤ 0 ↔ x ≤ y := by
    rw [← List.not_lt, ← htells.pos]
    omega
  have hsame : decide (n ≤ 0) = decide (x ≤ y) := decide_eq_decide.mpr hle
  simp only [lessequal, TValue.ttype, compareStrings, hn, ne_eq, not_true_eq_false, if_false, hsame]

/-- Strings are in lexicographic order, by `l_strcmp` and by the operators. -/
theorem lStrcmp_order (h : Heap N) (x y z : Bytes) :
    (∃ n, lStrcmp x y = .ok n ∧ (n < 0 ↔ x < y) ∧ (n = 0 ↔ x = y) ∧ (0 < n ↔ y < x)) ∧
    (luaVLessthan h (.string x) (.string y) = .value true ∨ x = y ∨
      luaVLessthan h (.string y) (.string x) = .value true) ∧
    luaVLessthan h (.string x) (.string x) = .value false ∧
    (luaVLessthan h (.string x) (.string y) = .value true →
      luaVLessthan h (.string y) (.string z) = .value true →
      luaVLessthan h (.string x) (.string z) = .value true) ∧
    (lessequal h (.string x) (.string y) = .value true ∨
      lessequal h (.string y) (.string x) = .value true) ∧
    (lessequal h (.string x) (.string y) = .value true →
      lessequal h (.string y) (.string z) = .value true →
      lessequal h (.string x) (.string z) = .value true) ∧
    (lessequal h (.string x) (.string y) = .value true ∧
      lessequal h (.string y) (.string x) = .value true ↔ x = y) ∧
    (lessequal h (.string x) (.string y) = .value true ↔
      luaVLessthan h (.string x) (.string y) = .value true ∨ x = y) := by
  obtain ⟨n, hn, htells⟩ := lStrcmp_tells x y
  have hcases := lt_or_eq_or_gt x y
  simp only [luaVLessthan_strings, lessequal_strings, OrderResult.value.injEq, decide_eq_true_eq,
    decide_eq_false_iff_not]
  refine ⟨⟨n, hn, htells.neg, htells.zero, htells.pos⟩, hcases, List.lt_irrefl x, List.lt_trans,
    List.le_total x y, List.le_trans, ⟨fun h => List.le_antisymm h.1 h.2, ?_⟩, ?_⟩
  · intro heq
    rw [heq]
    exact ⟨List.le_refl y, List.le_refl y⟩
  · rw [← List.not_lt]
    constructor
    · intro h
      rcases hcases with hlt | heq | hgt
      · exact .inl hlt
      · exact .inr heq
      · exact absurd hgt h
    · intro h
      rcases h with hlt | heq
      · exact List.lt_asymm hlt
      · rw [heq]
        exact List.lt_irrefl y

end Order

end UgmeeLua

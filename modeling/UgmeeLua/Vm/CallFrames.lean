import Mathlib.Tactic.SplitIfs
import UgmeeLua.Vm.CallRuns

namespace UgmeeLua.Calls

open Block Ltable

variable {N : Type}

section Fields

variable (L : Stack N) (f : (Nat → TValue N) → Nat → TValue N) (i : Nat) (c : CallInfo)

@[simp] theorem withStack_stack : (L.withStack f).up.stack = f L.up.stack := rfl
@[simp] theorem withStack_heap : (L.withStack f).up.heap = L.up.heap := rfl
@[simp] theorem withStack_openupval : (L.withStack f).up.openupval = L.up.openupval := rfl
@[simp] theorem withStack_uvhead : (L.withStack f).up.uvhead = L.up.uvhead := rfl
@[simp] theorem withStack_top : (L.withStack f).top = L.top := rfl
@[simp] theorem withStack_base : (L.withStack f).base = L.base := rfl
@[simp] theorem withStack_ci : (L.withStack f).ci = L.ci := rfl
@[simp] theorem withStack_frames : (L.withStack f).frames = L.frames := rfl
@[simp] theorem withStack_savedpc : (L.withStack f).savedpc = L.savedpc := rfl
@[simp] theorem withStack_tables : (L.withStack f).tables = L.tables := rfl

@[simp] theorem setFrame_up : (L.setFrame i c).up = L.up := rfl
@[simp] theorem setFrame_top : (L.setFrame i c).top = L.top := rfl
@[simp] theorem setFrame_base : (L.setFrame i c).base = L.base := rfl
@[simp] theorem setFrame_ci : (L.setFrame i c).ci = L.ci := rfl
@[simp] theorem setFrame_tables : (L.setFrame i c).tables = L.tables := rfl
@[simp] theorem setFrame_savedpc : (L.setFrame i c).savedpc = L.savedpc := rfl
@[simp] theorem setFrame_self : (L.setFrame i c).frames i = c := by simp [Stack.setFrame]

theorem setFrame_other {j : Nat} (h : j ≠ i) : (L.setFrame i c).frames j = L.frames j := by
  simp [Stack.setFrame, h]

@[simp] theorem push_top (v : TValue N) : (L.push v).get L.top = v := by
  simp [Stack.push, Stack.set, Stack.get, put]

theorem push_below (v : TValue N) {s : Nat} (hs : s < L.top) : (L.push v).get s = L.get s := by
  have hne : s ≠ L.top := by omega
  simp [Stack.push, Stack.set, Stack.get, put, hne]

end Fields

section Results

/-- How many results a call leaves: as many as are wanted, or all of them. -/
def total (wanted : Int) (n : Nat) : Nat := if wanted < 0 then n else wanted.toNat

/-- How many results there are to move. -/
def moved (wanted : Int) (n : Nat) : Nat := if wanted < 0 then n else min n wanted.toNat

theorem moveResults_eq (n : Nat) (i : Int) {firstResult res : Nat} (m : Nat → TValue N)
    (h : res ≤ firstResult) :
    moveResults n i firstResult res m =
      (i - moved i n, res + moved i n, fill m res (moved i n) fun j => m (firstResult + j)) := by
  induction n generalizing i firstResult res m with
  | zero =>
    have hmoved : moved i 0 = 0 := by simp [moved]
    simp [moveResults, hmoved]
  | succ n ih =>
    rw [moveResults]
    by_cases hi : i = 0
    · have hmoved : moved i (n + 1) = 0 := by simp [moved, hi]
      simp [hi, moved]
    · have hmoved : moved i (n + 1) = moved (i - 1) n + 1 := by
        unfold moved
        split_ifs <;> omega
      have hcount : i - 1 - (moved (i - 1) n : Int) = i - (moved (i - 1) n + 1 : Nat) := by omega
      have hplace : res + 1 + moved (i - 1) n = res + (moved (i - 1) n + 1) := by omega
      have hblock : fill (put m res (m firstResult)) (res + 1) (moved (i - 1) n)
          (fun j => put m res (m firstResult) (firstResult + 1 + j)) =
          fill m res (moved (i - 1) n + 1) fun j => m (firstResult + j) := by
        refine fill_step rfl fun j hj => ?_
        have hne : firstResult + 1 + j ≠ res := by omega
        simp only [put, if_neg hne]
        rw [Nat.add_assoc, Nat.add_comm 1 j]
      rw [if_pos hi, ih _ _ (by omega), hmoved, hcount, hplace, hblock]

/-- The result `j` of a function whose results begin at `firstResult`. -/
def Stack.result (L : Stack N) (firstResult j : Nat) : TValue N :=
  if firstResult + j < L.top then L.get (firstResult + j) else .nil

/-- What `luaD_poscall` does, all at once. -/
theorem luaDPoscall_eq (L : Stack N) {firstResult : Nat} (h : L.frame.func ≤ firstResult) :
    luaDPoscall firstResult L =
      let n := total L.frame.nresults (L.top - firstResult)
      (L.frame.nresults + 1,
        { L.withStack (fun m => fill m L.frame.func n (L.result firstResult)) with
          ci := L.ci - 1
          base := (L.frames (L.ci - 1)).base
          savedpc := (L.frames (L.ci - 1)).savedpc
          top := L.frame.func + n }) := by
  have htotal : moved L.frame.nresults (L.top - firstResult) +
      (L.frame.nresults - moved L.frame.nresults (L.top - firstResult)).toNat =
      total L.frame.nresults (L.top - firstResult) := by
    unfold moved total
    split_ifs <;> omega
  have hstack : fill (fill L.up.stack L.frame.func (moved L.frame.nresults (L.top - firstResult))
      fun j => L.up.stack (firstResult + j))
      (L.frame.func + moved L.frame.nresults (L.top - firstResult))
      (L.frame.nresults - moved L.frame.nresults (L.top - firstResult)).toNat (fun _ => .nil) =
      fill L.up.stack L.frame.func (total L.frame.nresults (L.top - firstResult))
        (L.result firstResult) := by
    have hless : moved L.frame.nresults (L.top - firstResult) ≤ L.top - firstResult := by
      unfold moved
      split_ifs <;> omega
    have hpad : 0 < (L.frame.nresults - moved L.frame.nresults (L.top - firstResult)).toNat →
        moved L.frame.nresults (L.top - firstResult) = L.top - firstResult := by
      unfold moved
      split_ifs <;> omega
    rw [← htotal]
    generalize moved L.frame.nresults (L.top - firstResult) = k at hless hpad ⊢
    generalize (L.frame.nresults - k).toNat = r at hpad ⊢
    funext s
    simp only [fill, Stack.result, Stack.get]
    split_ifs <;> first | rfl | omega
  rw [luaDPoscall, moveResults_eq _ _ _ h]
  simp only [putUp_eq, hstack, LUA_MULTRET, Nat.add_assoc, htotal]
  rfl

end Results

section Varargs

theorem varargLoop_eq (base : Nat) (n : Int) {ra : Nat} (hra : base ≤ ra) (hn : n ≤ base) (k j : Nat)
    (m : Nat → TValue N) :
    varargLoop base n ra k j m = fill m (ra + j) k fun i =>
      if ((j + i : Nat) : Int) < n then m ((base : Int) - n + (j + i : Nat)).toNat else .nil := by
  induction k generalizing j m with
  | zero => simp [varargLoop]
  | succ k ih =>
    rw [varargLoop, ih, ← Nat.add_assoc]
    refine fill_step rfl fun i hi => ?_
    have hindex : j + 1 + i = j + (i + 1) := by omega
    rw [hindex]
    by_cases hlt : ((j + (i + 1) : Nat) : Int) < n
    · have hne : ((base : Int) - n + (j + (i + 1) : Nat)).toNat ≠ ra + j := by omega
      simp only [if_pos hlt, put, if_neg hne]
    · simp only [if_neg hlt]

/-- What `OP_VARARG` delivers: as many values as are asked for, or all the extra arguments. -/
def varargCount (p : Proto N) (b : Nat) (L : Stack N) : Nat :=
  if b = 0 then L.frame.base - L.frame.func - p.numparams - 1 else b - 1

/-- The extra argument `j`, where it is kept below the base. -/
def Stack.extra (p : Proto N) (L : Stack N) (j : Nat) : TValue N :=
  if j < L.frame.base - L.frame.func - p.numparams - 1 then
    L.get (L.frame.func + 1 + p.numparams + j)
  else .nil

theorem opVararg_eq {p : Proto N} {L : Stack N} (h : L.frame.func + p.numparams < L.frame.base)
    (hbase : L.base = L.frame.base) (a b : Nat) :
    opVararg p a b L =
      { L.withStack (fun m => fill m (L.base + a) (varargCount p b L) (L.extra p)) with
        top := if b = 0 then L.base + a + varargCount p b L else L.top } := by
  have hn : (L.frame.base : Int) - L.frame.func - p.numparams - 1 =
      (L.frame.base - L.frame.func - p.numparams - 1 : Nat) := by omega
  have hloop : ∀ k, varargLoop L.frame.base (L.frame.base - L.frame.func - p.numparams - 1 : Nat)
      (L.base + a) k 0 L.up.stack = fill L.up.stack (L.base + a) k (L.extra p) := by
    intro k
    rw [varargLoop_eq L.frame.base _ (by omega) (by omega)]
    refine fill_congr fun j hj => ?_
    simp only [Stack.extra, Stack.get, Nat.zero_add, Int.ofNat_lt]
    split_ifs with hlt
    · congr 1
      omega
    · rfl
  rw [opVararg, hn]
  by_cases hb : b = 0
  · have hall : ((b : Nat) : Int) - 1 = LUA_MULTRET := by
      rw [hb]
      rfl
    have htop : ((L.base + a : Nat) + (L.frame.base - L.frame.func - p.numparams - 1 : Nat) : Int).toNat =
        L.base + a + (L.frame.base - L.frame.func - p.numparams - 1) := by omega
    simp only [if_pos hall, if_pos hb, varargCount, Stack.withStack, Int.toNat_natCast, hloop, htop]
  · have hsome : ¬ ((b : Nat) : Int) - 1 = LUA_MULTRET := by
      unfold LUA_MULTRET
      omega
    simp only [if_neg hsome, if_neg hb, varargCount, Stack.withStack, hloop]

end Varargs

section Arguments

theorem moveFixed_eq {fixed n i : Nat} {L : Stack N} (h : fixed + i + n ≤ L.top) :
    moveFixed fixed n i L =
      { L.withStack (fun m => fill (fill m L.top n fun j => m (fixed + i + j)) (fixed + i) n
          fun _ => .nil) with
        top := L.top + n } := by
  induction n generalizing i L with
  | zero =>
    have hsame : L.withStack (fun m => m) = L := rfl
    simp only [moveFixed, fill_zero, Nat.add_zero, hsame]
  | succ n ih =>
    have htop : ((L.push (L.get (fixed + i))).set (fixed + i) .nil).top = L.top + 1 := rfl
    rw [moveFixed, ih (by rw [htop]; omega), htop]
    have hstack : fill (fill ((L.push (L.get (fixed + i))).set (fixed + i) .nil).up.stack (L.top + 1) n
        fun j => ((L.push (L.get (fixed + i))).set (fixed + i) .nil).up.stack (fixed + (i + 1) + j))
        (fixed + (i + 1)) n (fun _ => .nil) =
        fill (fill L.up.stack L.top (n + 1) fun j => L.up.stack (fixed + i + j)) (fixed + i) (n + 1)
          fun _ => .nil := by
      funext s
      simp only [fill, Stack.push, Stack.set, Stack.get, Stack.withStack, put]
      split_ifs <;> first | rfl | omega | (congr 1; omega)
    have hend : L.top + 1 + n = L.top + (n + 1) := by omega
    rw [hend]
    simp only [Stack.withStack, hstack]
    rfl

/-- The parameters are above the arguments. -/
def raiseFixed (p : Proto N) (func : Nat) (L : Stack N) : Stack N :=
  { (L.withStack fun m => fill m L.top p.numparams fun j => L.get (func + 1 + j)).withStack
      fun m => fill m (func + 1) p.numparams fun _ => .nil with
    top := L.top + p.numparams }

theorem placeArguments_eq [LuaNumber N] (H : Host N) (addr : Nat) (p : Proto N) {func n : Nat}
    {L : Stack N} (htop : L.top = func + 1 + p.numparams + n) :
    placeArguments H addr p (p.numparams + n) L =
      if p.needsArg then
        match argTable H (fun i => L.get (func + 1 + p.numparams + i)) n with
        | .error e => .error (.table e)
        | .ok htab => .ok (L.top, (raiseFixed p func (L.setTable addr htab)).push (.table addr))
      else .ok (L.top, raiseFixed p func L) := by
  have hfixed : L.top - (p.numparams + n) = func + 1 := by omega
  have hplace : L.top - n = func + 1 + p.numparams := by omega
  have hroom : func + 1 + 0 + p.numparams ≤ L.top := by omega
  simp only [placeArguments, Nat.add_sub_cancel_left, hfixed, hplace]
  split_ifs with hneeds
  · cases argTable H (fun i => L.get (func + 1 + p.numparams + i)) n with
    | error e => rfl
    | ok htab =>
      have hraise := moveFixed_eq (L := L.setTable addr htab) hroom
      simp only [hraise]
      rfl
  · rw [moveFixed_eq hroom]
    rfl

end Arguments

/-- The frames and the upvalues stay as they are, and so does the stack below `low`. -/
structure Above (low : Nat) (L L' : Stack N) : Prop where
  frames : L'.frames = L.frames
  ci : L'.ci = L.ci
  base : L'.base = L.base
  savedpc : L'.savedpc = L.savedpc
  heap : L'.up.heap = L.up.heap
  openupval : L'.up.openupval = L.up.openupval
  uvhead : L'.up.uvhead = L.up.uvhead
  below : ∀ s < low, L'.get s = L.get s

namespace Above

variable {low : Nat} {L L' L'' : Stack N}

theorem refl (low : Nat) (L : Stack N) : Above low L L :=
  ⟨rfl, rfl, rfl, rfl, rfl, rfl, rfl, fun _ _ => rfl⟩

theorem trans (h : Above low L L') (h' : Above low L' L'') : Above low L L'' :=
  ⟨h'.frames.trans h.frames, h'.ci.trans h.ci, h'.base.trans h.base, h'.savedpc.trans h.savedpc,
    h'.heap.trans h.heap, h'.openupval.trans h.openupval, h'.uvhead.trans h.uvhead,
    fun s hs => (h'.below s hs).trans (h.below s hs)⟩

/-- The top and the tables are free. -/
theorem withTop (h : Above low L L') (top : Nat) : Above low L { L' with top := top } :=
  ⟨h.frames, h.ci, h.base, h.savedpc, h.heap, h.openupval, h.uvhead, h.below⟩

theorem withTable (h : Above low L L') (r : Nat) (t : Table N) : Above low L (L'.setTable r t) :=
  ⟨h.frames, h.ci, h.base, h.savedpc, h.heap, h.openupval, h.uvhead, h.below⟩

theorem withFill (h : Above low L L') {lo : Nat} (hlo : low ≤ lo) (n : Nat) (f : Nat → TValue N) :
    Above low L (L'.withStack fun m => fill m lo n f) := by
  refine ⟨h.frames, h.ci, h.base, h.savedpc, h.heap, h.openupval, h.uvhead, fun s hs => ?_⟩
  have hout : fill L'.up.stack lo n f s = L'.up.stack s := fill_out (by omega)
  exact hout.trans (h.below s hs)

theorem withSet (h : Above low L L') {s : Nat} (hs : low ≤ s) (v : TValue N) :
    Above low L (L'.set s v) := by
  have hset : L'.set s v = L'.withStack fun m => fill m s 1 fun _ => v := by
    simp only [Stack.set, Stack.withStack, put_eq_fill]
  rw [hset]
  exact h.withFill hs 1 _

theorem withPush (h : Above low L L') (htop : low ≤ L'.top) (v : TValue N) :
    Above low L (L'.push v) := (h.withSet htop v).withTop _

end Above

section Entering

variable [LuaNumber N] {H : Host N} {tm : TValue N} {addr func base : Nat} {nresults : Int}
  {p : Proto N} {e : Entered} {L L' E : Stack N}

omit [LuaNumber N] in
theorem tryfuncTM_eq (hfun : tm.ttype = .LUA_TFUNCTION) (L : Stack N) (func : Nat) :
    tryfuncTM tm func L = .ok
      { (L.withStack fun m => fill m (func + 1) (L.top - func) fun i => L.get (func + i)).withStack
          fun m => fill m func 1 fun _ => tm with
        top := L.top + 1 } := by
  have hcopy : copyDown (func + 1) func (L.top - func) L.up.stack = _ :=
    copyDown_eq (.inl (Nat.le_succ func))
  simp only [tryfuncTM, hfun, ne_eq, not_true_eq_false, if_false, Stack.set, Stack.withStack, hcopy,
    put_eq_fill, Stack.get]

omit [LuaNumber N] in
theorem tryfuncTM_above (hok : tryfuncTM tm func L = .ok L') :
    Above func L L' ∧ L'.top = L.top + 1 := by
  by_cases hfun : tm.ttype = .LUA_TFUNCTION
  · rw [tryfuncTM_eq hfun] at hok
    cases hok
    have hmove := (Above.refl func L).withFill (Nat.le_succ func) (L.top - func) fun i =>
      L.get (func + i)
    exact ⟨(hmove.withFill (Nat.le_refl func) 1 fun _ => tm).withTop _, rfl⟩
  · simp [tryfuncTM, hfun] at hok

omit [LuaNumber N] in
theorem raiseFixed_above (p : Proto N) {M : Stack N} (h : Above (func + 1) L M)
    (htop : func < M.top) : Above (func + 1) L (raiseFixed p func M) := by
  have hmove := h.withFill htop p.numparams fun j => M.get (func + 1 + j)
  exact (hmove.withFill (Nat.le_refl _) p.numparams fun _ => .nil).withTop _

omit [LuaNumber N] in
/-- With the missing ones, there are the parameters and the extra arguments. -/
theorem padArguments_top (p : Proto N) (htop : func < L.top) :
    (padArguments (p.numparams - (L.top - func - 1)) L).top =
      func + 1 + p.numparams + (L.top - func - 1 - p.numparams) := by
  simp only [padArguments]
  omega

omit [LuaNumber N] in
theorem padArguments_eq (n : Nat) (L : Stack N) :
    padArguments n L =
      { L.withStack (fun m => fill m L.top n fun _ => .nil) with top := L.top + n } := by
  simp only [padArguments, Stack.withStack, putUp_eq]

omit [LuaNumber N] in
theorem padArguments_above (n : Nat) (htop : func < L.top) :
    Above (func + 1) L (padArguments n L) := by
  rw [padArguments_eq]
  exact ((Above.refl (func + 1) L).withFill htop n fun _ => .nil).withTop _

/-- What `adjust_varargs` does. -/
theorem adjustVarargs_eq (htop : func < L.top) :
    adjustVarargs H addr p (L.top - func - 1) L =
      let M := padArguments (p.numparams - (L.top - func - 1)) L
      if p.needsArg then
        match argTable H (fun i => M.get (func + 1 + p.numparams + i))
            (L.top - func - 1 - p.numparams) with
        | .error e => .error (.table e)
        | .ok htab => .ok (M.top, (raiseFixed p func (M.setTable addr htab)).push (.table addr))
      else .ok (M.top, raiseFixed p func M) := by
  have hcount : L.top - func - 1 + (p.numparams - (L.top - func - 1)) =
      p.numparams + (L.top - func - 1 - p.numparams) := by omega
  rw [adjustVarargs, hcount]
  exact placeArguments_eq H addr p (padArguments_top p htop)

theorem adjustArguments_above (htop : func < L.top)
    (hok : adjustArguments H addr p func L = .ok (base, L')) :
    Above (func + 1) L L' ∧ func < base ∧ base ≤ L'.top := by
  rw [adjustArguments] at hok
  by_cases hvararg : p.isVararg = 0
  · rw [if_pos hvararg] at hok
    cases hok
    split_ifs
    · exact ⟨(Above.refl _ L).withTop _, Nat.lt_succ_self _, Nat.le_add_right _ _⟩
    · exact ⟨.refl _ L, Nat.lt_succ_self _, htop⟩
  · have hM := padArguments_above (p.numparams - (L.top - func - 1)) htop
    have hMtop := padArguments_top p htop
    rw [if_neg hvararg, adjustVarargs_eq htop] at hok
    generalize padArguments (p.numparams - (L.top - func - 1)) L = M at hM hMtop hok
    simp only at hok
    split_ifs at hok with hneeds
    · cases harg : argTable H (fun i => M.get (func + 1 + p.numparams + i))
        (L.top - func - 1 - p.numparams) with
      | error e => simp [harg] at hok
      | ok htab =>
        simp only [harg] at hok
        cases hok
        have hraise := raiseFixed_above p (hM.withTable addr htab) (by simp [Stack.setTable]; omega)
        refine ⟨hraise.withPush ?_ _, by omega, ?_⟩
        · simp only [raiseFixed, Stack.setTable]
          omega
        · simp only [raiseFixed, Stack.push, Stack.setTable]
          omega
    · cases hok
      refine ⟨raiseFixed_above p hM (by omega), by omega, ?_⟩
      simp only [raiseFixed]
      omega

/-- What is there when `luaD_precall` has entered the function at `ra`. -/
structure Entry (H : Host N) (L : Stack N) (ra : Nat) (wanted : Int) (e : Entered) (E : Stack N) :
    Prop where
  ci : E.ci = L.ci + 1
  base : E.base = E.frame.base
  func : E.frame.func = ra
  nresults : E.frame.nresults = wanted
  lt : ra < E.base
  top : E.base ≤ E.top
  frames : ∀ i < L.ci, E.frames i = L.frames i
  caller : E.frames L.ci = { L.frame with savedpc := L.savedpc }
  heap : E.up.heap = L.up.heap
  openupval : E.up.openupval = L.up.openupval
  uvhead : E.up.uvhead = L.up.uvhead
  below : ∀ s < ra, E.get s = L.get s
  isLua : E.isLua H = decide (e = .PCRLUA)
  luaFrame : e = .PCRLUA → E.top = E.frame.top ∧ E.frame.tailcalls = 0

omit [LuaNumber N] in
theorem Entry.of_above (h : Entry H L' func nresults e E) (habove : Above func L L') :
    Entry H L func nresults e E where
  ci := by rw [h.ci, habove.ci]
  base := h.base
  func := h.func
  nresults := h.nresults
  lt := h.lt
  top := h.top
  frames i hi := by rw [h.frames i (habove.ci.symm ▸ hi), habove.frames]
  caller := by
    have hcaller := h.caller
    simp only [Stack.frame, habove.ci, habove.frames, habove.savedpc] at hcaller
    exact hcaller
  heap := h.heap.trans habove.heap
  openupval := h.openupval.trans habove.openupval
  uvhead := h.uvhead.trans habove.uvhead
  below s hs := (h.below s hs).trans (habove.below s hs)
  isLua := h.isLua
  luaFrame := h.luaFrame

omit [LuaNumber N] in
/-- A frame on top of those that are there, with the arguments in their places. -/
theorem Above.entry {M : Stack N} {c : CallInfo}
    (h : Above (func + 1) (L.setFrame L.ci { L.frame with savedpc := L.savedpc }) M)
    (hci : E.ci = M.ci + 1) (hframes : E.frames = (M.setFrame (M.ci + 1) c).frames)
    (hup : E.up = M.up) (hbase : E.base = c.base) (hfunc : c.func = func)
    (hnresults : c.nresults = nresults) (hlt : func < c.base) (htop : c.base ≤ E.top)
    (hisLua : (H.protoOf (L.get func)).isSome = decide (e = .PCRLUA))
    (hlua : e = .PCRLUA → E.top = c.top ∧ c.tailcalls = 0) : Entry H L func nresults e E := by
  have hMci : M.ci = L.ci := h.ci
  have hframe : E.frame = c := by
    rw [Stack.frame, hci, hframes, setFrame_self]
  have hbelow : ∀ s < func + 1, E.get s = L.get s := by
    intro s hs
    rw [Stack.get, hup]
    exact h.below s hs
  have hold : ∀ i ≤ L.ci, E.frames i = (L.setFrame L.ci { L.frame with savedpc := L.savedpc }).frames i := by
    intro i hi
    rw [hframes, setFrame_other _ _ _ (by omega), h.frames]
  refine ⟨by rw [hci, hMci], by rw [hframe, hbase], by rw [hframe, hfunc], by rw [hframe, hnresults],
    by rw [hbase]; exact hlt, by rw [hbase]; exact htop, ?_, ?_, ?_, ?_, ?_, ?_, ?_, ?_⟩
  · intro i hi
    rw [hold i hi.le, setFrame_other _ _ _ (by omega)]
  · rw [hold L.ci (Nat.le_refl _), setFrame_self]
  · rw [hup]
    exact h.heap
  · rw [hup]
    exact h.openupval
  · rw [hup]
    exact h.uvhead
  · intro s hs
    exact hbelow s (by omega)
  · have hfn : E.funcAt E.ci = L.get func := by
      have hplace : (E.frames E.ci).func = func := by
        rw [← Stack.frame, hframe, hfunc]
      rw [Stack.funcAt, hplace, hbelow func (by omega)]
    rw [Stack.isLua, Stack.isLuaAt, hfn, hisLua]
  · rw [hframe]
    exact hlua

theorem precallFunction_entry (htop : func < L.top)
    (hok : precallFunction H addr func nresults L = .ok (e, E)) : Entry H L func nresults e E := by
  rw [precallFunction] at hok
  simp only at hok
  generalize hS : L.setFrame L.ci { L.frame with savedpc := L.savedpc } = S at hok
  have hStop : func < S.top := by rw [← hS]; exact htop
  have hget : S.get func = L.get func := by rw [← hS]; rfl
  cases hcl : H.closureOf (S.get func) with
  | none => simp [hcl] at hok
  | some cl =>
    cases cl with
    | lua q =>
      simp only [hcl] at hok
      cases hadj : adjustArguments H addr q func S with
      | error e => simp [hadj, bind, Except.bind] at hok
      | ok r =>
        obtain ⟨b, M⟩ := r
        simp only [hadj, Loop.ok_bind] at hok
        obtain ⟨habove, hlt, hle⟩ := adjustArguments_above hStop hadj
        by_cases hroom : M.ci + 1 < H.limit
        · simp only [incCi, if_pos hroom, Loop.ok_bind] at hok
          cases hok
          have hlow : func + 1 ≤ M.top := by omega
          have hnil := habove.withFill hlow (b + q.maxstacksize - M.top) fun _ => .nil
          rw [← hS] at hnil
          refine hnil.entry (c := ⟨b, func, b + q.maxstacksize, (M.frames (M.ci + 1)).savedpc, nresults, 0⟩)
            rfl rfl ?_ rfl rfl rfl hlt (Nat.le_add_right _ _) ?_ fun _ => ⟨rfl, rfl⟩
          · simp only [enterLua, Stack.withStack, putUp_eq]
            rfl
          · simp [Host.protoOf, ← hget, hcl]
        · simp [incCi, hroom, bind, Except.bind] at hok
    | c =>
      simp only [hcl] at hok
      by_cases hroom : S.ci + 1 < H.limit
      · simp only [incCi, if_pos hroom, Loop.ok_bind] at hok
        cases hok
        have hsame := Above.refl (func + 1) (L.setFrame L.ci { L.frame with savedpc := L.savedpc })
        rw [hS] at hsame
        nth_rewrite 1 [← hS] at hsame
        refine hsame.entry (c := ⟨func + 1, func, S.top + LUA_MINSTACK, (S.frames (S.ci + 1)).savedpc,
          nresults, (S.frames (S.ci + 1)).tailcalls⟩) rfl rfl rfl rfl rfl rfl (Nat.lt_succ_self _) hStop ?_
          fun h => nomatch h
        simp [Host.protoOf, ← hget, hcl]
      · simp [incCi, hroom, bind, Except.bind] at hok

theorem luaDPrecall_entry (htop : func < L.top)
    (hok : luaDPrecall H tm addr func nresults L = .ok (e, E)) : Entry H L func nresults e E := by
  rw [luaDPrecall] at hok
  split_ifs at hok with hfun
  · exact precallFunction_entry htop hok
  · cases htm : tryfuncTM tm func L with
    | error e => simp [htm, bind, Except.bind] at hok
    | ok M =>
      simp only [htm, Loop.ok_bind] at hok
      obtain ⟨habove, hMtop⟩ := tryfuncTM_above htm
      exact (precallFunction_entry (by omega) hok).of_above habove

end Entering

section Leaving

variable {L : Stack N}

theorem luaFClose_nil {up : Upvalues N} (h : up.openupval = []) (level : Nat) :
    luaFClose up level = up := by
  cases up
  simp only at h
  subst h
  rfl

/-- The test of `L->openupval` only saves a call. -/
theorem luaFClose_tested (up : Upvalues N) (level : Nat) :
    (if up.openupval ≠ [] then luaFClose up level else up) = luaFClose up level := by
  split_ifs with h
  · rfl
  · rw [luaFClose_nil (not_not.mp h)]

/-- The frame that `OP_TAILCALL` makes of the two on top. -/
def Stack.replaced (L : Stack N) : CallInfo :=
  let ci := L.frames (L.ci - 1)
  ⟨ci.func + (L.frame.base - L.frame.func), ci.func, ci.func + (L.top - L.frame.func), L.savedpc,
    ci.nresults, ci.tailcalls + 1⟩

theorem replaceFrame_eq (h : (L.frames (L.ci - 1)).func ≤ L.frame.func) :
    replaceFrame L =
      { ({ L with up := luaFClose L.up (L.frames (L.ci - 1)).base }.withStack fun m =>
            fill m (L.frames (L.ci - 1)).func (L.top - L.frame.func) fun i =>
              m (L.frame.func + i)).setFrame (L.ci - 1) L.replaced with
        base := L.replaced.base
        top := L.replaced.top
        ci := L.ci - 1 } := by
  simp only [replaceFrame, luaFClose_tested, copyUp_eq (.inl h)]
  rfl

theorem setArguments_eq (a b : Nat) (L : Stack N) :
    setArguments a b L = { L with top := (setArguments a b L).top } := by
  unfold setArguments
  split_ifs <;> rfl

theorem setResults_eq (a b : Nat) (L : Stack N) :
    setResults a b L = { L with top := (setResults a b L).top } := by
  unfold setResults
  split_ifs <;> rfl

/-- What `OP_RETURN` leaves to `luaD_poscall`. -/
def closeFrame (pc a b : Nat) (L : Stack N) : Stack N :=
  { L with top := (setResults a b L).top, up := luaFClose L.up L.base, savedpc := pc }

theorem opReturn_eq (pc a b : Nat) (L : Stack N) :
    opReturn pc a b L = luaDPoscall (L.base + a) (closeFrame pc a b L) := by
  have hup : (setResults a b L).up = L.up := by rw [setResults_eq]
  have hbase : (setResults a b L).base = L.base := by rw [setResults_eq]
  simp only [opReturn, luaFClose_tested, hup, hbase]
  rw [setResults_eq, closeFrame]

end Leaving

end UgmeeLua.Calls

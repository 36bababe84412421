import UgmeeLua.Ltable.Maps
import UgmeeLua.Vm.CallInvariant

namespace UgmeeLua.Calls

open Block Ltable Upvalues

variable {N : Type}

section ArgTable

variable [LuaNumber N] {H : Host N} {extra : Nat → TValue N}

theorem getnum_array (hash : TValue N → Nat) {t : Table N} {i : Nat} (hi : i < t.sizearray)
    (hint : i < 2 ^ 31) : luaHGetnum hash t (BitVec.ofNat 32 (i + 1)) = some (.array i) := by
  have hsub : (BitVec.ofNat 32 (i + 1) - 1).toNat = i := by
    rw [BitVec.ofNat_add, BitVec.ofNat_eq_ofNat, BitVec.add_sub_cancel, BitVec.toNat_ofNat]
    omega
  simp only [luaHGetnum, hsub, if_pos hi]

/-- The extra arguments go to the array part. -/
theorem argLoop_eq (is : List Nat) {t : Table N} (hmemory : t.sizearray ≤ t.allocated)
    (hi : ∀ i ∈ is, i < t.sizearray ∧ i < 2 ^ 31) :
    argLoop H extra is t =
      .ok { t with array := fun j => if j ∈ is then extra j else t.array j } := by
  induction is generalizing t with
  | nil => simp [argLoop]
  | cons i is ih =>
    obtain ⟨hlt, hint⟩ := hi i List.mem_cons_self
    have hplace : luaHSetnum H.hash H.depth t (BitVec.ofNat 32 (i + 1)) = .ok (.array i, t) := by
      simp only [luaHSetnum, setnumWith, getnum_array H.hash hlt hint]
    have hwrite : t.write (extra i) (.array i) =
        .ok { t with array := fun j => if j = i then extra i else t.array j } :=
      if_pos (Nat.lt_of_lt_of_le hlt hmemory)
    have hrest := ih (t := { t with array := fun j => if j = i then extra i else t.array j }) hmemory
      fun j hj => hi j (List.mem_cons_of_mem _ hj)
    simp only [argLoop, hplace, Loop.ok_bind, hwrite, hrest, List.mem_cons]
    congr 2
    funext j
    by_cases hj : j = i
    · simp [hj]
    · simp [hj]

/-- The `arg` table: the extra arguments in its array, and their count in its one node. -/
def argOf (extra : Nat → TValue N) (nvar : Nat) : Table N where
  array j := if j < nvar then extra j else .nil
  allocated := nvar
  sizearray := nvar
  node j := if j = 0 then ⟨.number (castNum (BitVec.ofNat 32 nvar)), .string (bytes "n"), none⟩
    else emptyNode
  isDummy := false
  lsizenode := 0
  lastfree := 1

/-- The table before the count is in it. -/
def argArray (extra : Nat → TValue N) (nvar : Nat) : Table N where
  array j := if j < nvar then extra j else .nil
  allocated := nvar
  sizearray := nvar
  node _ := emptyNode
  isDummy := false
  lsizenode := 0
  lastfree := 1

omit [LuaNumber N] in
theorem luaHNew_arg (nvar : Nat) :
    (luaHNew nvar 1 : Except Failure (Table N)) = .ok (argArray (fun _ => .nil) nvar) := by
  have hnil : (fun i => if 0 ≤ i ∧ i < nvar then TValue.nil else .nil : Nat → TValue N) =
      fun j => if j < nvar then .nil else .nil := by
    funext i
    split_ifs <;> rfl
  have hlog : ceillog2 1 = 0 := rfl
  simp only [luaHNew, setarrayvector, setnodevector, hlog, argArray, ← hnil]
  rfl

omit [LuaNumber N] in
theorem mainposition_arg (hash : TValue N → Nat) (s : Bytes) {t : Table N} (ht : t.lsizenode = 0) :
    mainposition hash t (.string s) = 0 := by
  simp only [mainposition, lmod, Table.sizenode, ht, Nat.pow_zero, Nat.sub_self, Nat.and_zero]

/-- The count goes to the one node. -/
theorem setstr_arg (hdepth : 0 < H.depth) (nvar : Nat) (s : Bytes) :
    luaHSetstr H.hash H.depth (argArray extra nvar) s =
      .ok (putKey (argArray extra nvar) 0 (.string s)) := by
  obtain ⟨d, hd⟩ : ∃ d, H.depth = d + 1 := ⟨H.depth - 1, by omega⟩
  have hmp := mainposition_arg H.hash s (t := argArray extra nvar) rfl
  have hnone : luaHGetstr H.hash (argArray extra nvar) s = none := by
    have hnot : Scatter.find (fun i => ((argArray extra nvar).node i).next)
        (fun i => isStr s ((argArray extra nvar).node i).key) (argArray extra nvar).sizenode 0 = none :=
      Scatter.find_none (fun _ => rfl) _ _
    rw [luaHGetstr, hmp, chainFind, hnot]
    rfl
  simp only [luaHSetstr, setstrWith, hnone, hd, newkey, newkeyStep, hmp]
  rfl

theorem argTable_eq (hdepth : 0 < H.depth) {nvar : Nat} (hint : nvar ≤ 2 ^ 31) :
    argTable H extra nvar = .ok (argOf extra nvar) := by
  have hin : ∀ i ∈ List.range nvar, i < nvar ∧ i < 2 ^ 31 := by
    intro i hi
    have hlt := List.mem_range.mp hi
    exact ⟨hlt, by omega⟩
  have hloop : argLoop H extra (List.range nvar) (argArray (fun _ => .nil) nvar) = _ :=
    argLoop_eq (List.range nvar) (Nat.le_refl nvar) hin
  have harray : { argArray (fun _ => TValue.nil) nvar with
      array := fun j => if j ∈ List.range nvar then extra j
        else (argArray (fun _ => TValue.nil) nvar).array j } = argArray extra nvar := by
    simp only [argArray, List.mem_range]
    congr 1
    funext j
    split_ifs <;> rfl
  simp only [argTable, luaHNew_arg, Loop.ok_bind, hloop, harray, setstr_arg hdepth]
  simp only [putKey, Table.write, Table.setNode, argArray, argOf]
  congr 2
  funext j
  split_ifs <;> rfl

/-- The table holds the extra arguments and their count. -/
theorem argOf_lookup [LawfulNumber N] (hash : TValue N → Nat) {nvar : Nat} (hint : nvar ≤ 2 ^ 31) :
    (∀ i < nvar, lookup hash (argOf extra nvar) (.number (castNum (BitVec.ofNat 32 (i + 1)))) =
      .ok (extra i)) ∧
    lookup hash (argOf extra nvar) (.string (bytes "n")) =
      .ok (.number (castNum (BitVec.ofNat 32 nvar))) := by
  constructor
  · intro i hi
    have hplace := getnum_array hash (t := argOf extra nvar) hi (by omega)
    rw [lookup, ← luaHGetnum_eq, hplace]
    simp only [Table.found, Table.read, argOf, if_pos hi]
  · have hmp := mainposition_arg hash (bytes "n") (t := argOf extra nvar) rfl
    have hfirst : Scatter.find (fun i => ((argOf extra nvar).node i).next)
        (fun i => isStr (bytes "n") ((argOf extra nvar).node i).key) (argOf extra nvar).sizenode 0 =
        some 0 :=
      Scatter.find_head (by simp [argOf, isStr]) (Nat.two_pow_pos _)
    have hhead : luaHGetstr hash (argOf extra nvar) (bytes "n") = some (.node 0) := by
      rw [luaHGetstr, hmp, chainFind, hfirst]
      rfl
    simp only [lookup, luaHGet, hhead]
    rfl

end ArgTable

/-- The values from `s` on, `n` of them. -/
def values (L : Stack N) (s n : Nat) : List (TValue N) := (List.range n).map fun j => L.get (s + j)

theorem values_getD (L : Stack N) (s n i : Nat) : (values L s n).getD i .nil =
    if i < n then L.get (s + i) else .nil := by
  by_cases hi : i < n
  · simp [values, hi]
  · simp [values, hi]

@[simp] theorem values_length (L : Stack N) (s n : Nat) : (values L s n).length = n := by
  simp [values]

/-- The arguments of the function at `func`. -/
def arguments (L : Stack N) (func : Nat) : List (TValue N) :=
  values L (func + 1) (L.top - func - 1)

theorem arguments_getD (L : Stack N) (func i : Nat) : (arguments L func).getD i .nil =
    if func + 1 + i < L.top then L.get (func + 1 + i) else .nil := by
  rw [arguments, values_getD]
  split_ifs <;> first | rfl | omega

theorem arguments_length (L : Stack N) (func : Nat) :
    (arguments L func).length = L.top - func - 1 := values_length L _ _

/-- The arguments of a call: an object that is no function is the first one of its tag method. -/
def passed (L : Stack N) (func : Nat) : List (TValue N) :=
  if (L.get func).ttype = .LUA_TFUNCTION then arguments L func else L.get func :: arguments L func

/-- The function that is called: the object, or its tag method. -/
def callee (tm : TValue N) (L : Stack N) (func : Nat) : TValue N :=
  if (L.get func).ttype = .LUA_TFUNCTION then L.get func else tm

/-- What a Lua function that has been entered finds of its arguments. -/
structure Passed (p : Proto N) (args : List (TValue N)) (addr func : Nat) [LuaNumber N] (E : Stack N) :
    Prop where
  params : ∀ i < p.numparams, E.get (E.base + i) = args.getD i .nil
  hidden : p.isVararg ≠ 0 → E.base = func + 1 + p.numparams + (args.length - p.numparams) ∧
    ∀ j < args.length - p.numparams, E.get (func + 1 + p.numparams + j) = args.getD (p.numparams + j) .nil
  arg : p.isVararg ≠ 0 → p.needsArg = true → E.get (E.base + p.numparams) = .table addr ∧
    E.tables addr = some (argOf (fun i => args.getD (p.numparams + i) .nil)
      (args.length - p.numparams))

section Entering

variable [LuaNumber N] {H : Host N} {addr func base : Nat} {nresults : Int} {p : Proto N} {L : Stack N}

/-- What the arguments are when they have come to their places. -/
structure Placed (p : Proto N) (args : List (TValue N)) (addr func base : Nat) (L : Stack N) :
    Prop where
  params : ∀ i < p.numparams, if base + i < L.top then L.get (base + i) = args.getD i .nil
    else args.getD i .nil = .nil
  hidden : p.isVararg ≠ 0 → base = func + 1 + p.numparams + (args.length - p.numparams) ∧
    base ≤ L.top ∧ ∀ j < args.length - p.numparams,
      L.get (func + 1 + p.numparams + j) = args.getD (p.numparams + j) .nil
  arg : p.isVararg ≠ 0 → p.needsArg = true → base + p.numparams < L.top ∧
    L.get (base + p.numparams) = .table addr ∧
    L.tables addr = some (argOf (fun i => args.getD (p.numparams + i) .nil)
      (args.length - p.numparams))

omit [LuaNumber N] in
/-- With the missing ones, the arguments are still in their order. -/
theorem padArguments_get {s : Nat} (hlow : func < s)
    (hs : s < (padArguments (p.numparams - (L.top - func - 1)) L).top) :
    (padArguments (p.numparams - (L.top - func - 1)) L).get s =
      (arguments L func).getD (s - func - 1) .nil := by
  have hplace : func + 1 + (s - func - 1) = s := by omega
  rw [arguments_getD, hplace, padArguments_eq]
  simp only [padArguments] at hs
  simp only [Stack.get, withStack_stack, fill]
  split_ifs <;> first | rfl | omega

omit [LuaNumber N] in
theorem raiseFixed_get {M : Stack N} (hroom : func + 1 + p.numparams ≤ M.top) :
    (∀ j < p.numparams, (raiseFixed p func M).get (M.top + j) = M.get (func + 1 + j)) ∧
    ∀ s, func + 1 + p.numparams ≤ s → s < M.top → (raiseFixed p func M).get s = M.get s := by
  constructor
  · intro j hj
    have hout : fill (fill M.up.stack M.top p.numparams fun j => M.get (func + 1 + j)) (func + 1)
        p.numparams (fun _ => .nil) (M.top + j) = _ := fill_out (.inr (by omega))
    exact hout.trans (fill_in hj)
  · intro s hlow hs
    have hout : fill (fill M.up.stack M.top p.numparams fun j => M.get (func + 1 + j)) (func + 1)
        p.numparams (fun _ => .nil) s = _ := fill_out (.inr hlow)
    exact hout.trans (fill_out (.inl hs))

theorem adjustVarargs_placed (hdepth : 0 < H.depth) (htop : func < L.top)
    (hint : (arguments L func).length ≤ 2 ^ 31) :
    ∃ base L', adjustVarargs H addr p (L.top - func - 1) L = .ok (base, L') ∧
      Placed p (arguments L func) addr func base L' := by
  have hlength := arguments_length L func
  have hMtop := padArguments_top p htop
  have hMget : ∀ i, func + 1 + i < (padArguments (p.numparams - (L.top - func - 1)) L).top →
      (padArguments (p.numparams - (L.top - func - 1)) L).get (func + 1 + i) =
        (arguments L func).getD i .nil := by
    intro i hi
    have hindex : func + 1 + i - func - 1 = i := by omega
    rw [padArguments_get (by omega) hi, hindex]
  rw [adjustVarargs_eq htop, ← hlength]
  rw [← hlength] at hMtop hMget
  generalize padArguments (p.numparams - (arguments L func).length) L = M at hMtop hMget
  have hextra : ∀ i, i < (arguments L func).length - p.numparams →
      M.get (func + 1 + p.numparams + i) = (arguments L func).getD (p.numparams + i) .nil := by
    intro i hi
    rw [Nat.add_assoc (func + 1)]
    exact hMget _ (by omega)
  simp only
  by_cases hneeds : p.needsArg = true
  · have htable : argTable H (fun i => M.get (func + 1 + p.numparams + i))
        ((arguments L func).length - p.numparams) = _ := argTable_eq hdepth (by omega)
    have hsame : argOf (fun i => M.get (func + 1 + p.numparams + i))
        ((arguments L func).length - p.numparams) =
        argOf (fun i => (arguments L func).getD (p.numparams + i) .nil)
          ((arguments L func).length - p.numparams) := by
      simp only [argOf]
      congr 1
      funext j
      split_ifs with hj
      · exact hextra j hj
      · rfl
    rw [if_pos hneeds, htable, hsame]
    refine ⟨_, _, rfl, ?_⟩
    generalize hhtab : argOf (fun i => (arguments L func).getD (p.numparams + i) .nil)
      ((arguments L func).length - p.numparams) = htab
    have hroom : func + 1 + p.numparams ≤ (M.setTable addr htab).top := by
      simp only [Stack.setTable]
      omega
    obtain ⟨hfixed, hkeep⟩ := raiseFixed_get hroom
    have hRtop : (raiseFixed p func (M.setTable addr htab)).top = M.top + p.numparams := rfl
    have htables : (raiseFixed p func (M.setTable addr htab)).tables addr = some htab := if_pos rfl
    generalize raiseFixed p func (M.setTable addr htab) = R at hfixed hkeep hRtop htables ⊢
    have hpush : (R.push (.table addr)).top = R.top + 1 := rfl
    refine ⟨fun i hi => ?_, fun _ => ⟨by omega, by omega, fun j hj => ?_⟩,
      fun _ _ => ⟨by omega, ?_, ?_⟩⟩
    · rw [if_pos (by omega), push_below _ _ (by omega)]
      exact (hfixed i hi).trans (hMget i (by omega))
    · rw [push_below _ _ (by omega)]
      exact (hkeep _ (by omega) (by simp only [Stack.setTable]; omega)).trans (hextra j hj)
    · rw [← hRtop, push_top]
    · rw [hhtab]
      exact htables
  · rw [if_neg hneeds]
    have hroom : func + 1 + p.numparams ≤ M.top := by omega
    obtain ⟨hfixed, hkeep⟩ := raiseFixed_get hroom
    have hRtop : (raiseFixed p func M).top = M.top + p.numparams := rfl
    refine ⟨_, _, rfl, fun i hi => ?_, fun _ => ⟨by omega, by omega, fun j hj => ?_⟩,
      fun _ h => absurd h hneeds⟩
    · rw [if_pos (by omega), hfixed i hi]
      exact hMget i (by omega)
    · rw [hkeep _ (by omega) (by omega)]
      exact hextra j hj

theorem adjustArguments_placed (hdepth : 0 < H.depth) (htop : func < L.top)
    (hint : (arguments L func).length ≤ 2 ^ 31) :
    ∃ base L', adjustArguments H addr p func L = .ok (base, L') ∧
      Placed p (arguments L func) addr func base L' := by
  rw [adjustArguments]
  by_cases hvararg : p.isVararg = 0
  · rw [if_pos hvararg]
    refine ⟨_, _, rfl, fun i hi => ?_, fun h => absurd hvararg h, fun h => absurd hvararg h⟩
    have hget := arguments_getD L func i
    by_cases hmany : L.top > func + 1 + p.numparams
    · rw [if_pos (by omega)] at hget
      rw [if_pos hmany, if_pos (by simp only; omega)]
      exact hget.symm
    · rw [if_neg hmany]
      split_ifs with hin
      · rw [if_pos hin] at hget
        exact hget.symm
      · rw [if_neg hin] at hget
        exact hget
  · rw [if_neg hvararg]
    exact adjustVarargs_placed hdepth htop hint

omit [LuaNumber N] in
/-- The registers above the arguments are nil. -/
theorem enterLua_get (p : Proto N) (func base : Nat) (nresults : Int) (L : Stack N) (s : Nat) :
    (enterLua p func base nresults L).get s =
      if L.top ≤ s ∧ s < base + p.maxstacksize then .nil else L.get s := by
  simp only [enterLua, Stack.withStack, putUp_eq, Stack.get, fill, Stack.setFrame]
  split_ifs <;> first | rfl | omega

theorem enterLua_passed {L : Stack N} {args : List (TValue N)}
    (hp : p.numparams ≤ p.maxstacksize) (h : Placed p args addr func base L) :
    Passed p args addr func (enterLua p func base nresults L) := by
  have hbase : (enterLua p func base nresults L).base = base := rfl
  refine ⟨fun i hi => ?_, fun hv => ⟨(h.hidden hv).1, fun j hj => ?_⟩, fun hv hneeds => ?_⟩
  · have hparam := h.params i hi
    rw [hbase, enterLua_get]
    split_ifs at hparam with hin
    · rw [if_neg (by omega)]
      exact hparam
    · rw [if_pos (by omega), hparam]
  · obtain ⟨heq, hle, hget⟩ := h.hidden hv
    rw [enterLua_get, if_neg (by omega)]
    exact hget j hj
  · obtain ⟨hlt, hget, htable⟩ := h.arg hv hneeds
    rw [hbase, enterLua_get, if_neg (by omega)]
    exact ⟨hget, htable⟩

theorem precallFunction_passed (hp : H.protoOf (L.get func) = some p)
    (hmax : p.numparams ≤ p.maxstacksize) (hdepth : 0 < H.depth) (hroom : L.ci + 1 < H.limit)
    (htop : func < L.top) (hint : (arguments L func).length ≤ 2 ^ 31) :
    ∃ E, precallFunction H addr func nresults L = .ok (.PCRLUA, E) ∧
      Passed p (arguments L func) addr func E := by
  have hcl : H.closureOf (L.get func) = some (.lua p) := by
    unfold Host.protoOf at hp
    split at hp
    · rename_i hcl
      rw [hcl, Option.some.inj hp]
    · cases hp
  have hsaved : func < (L.setFrame L.ci { L.frame with savedpc := L.savedpc }).top := htop
  obtain ⟨base, M, hadj, hplaced⟩ := @adjustArguments_placed _ _ H addr func p _ hdepth hsaved hint
  have hci : M.ci = L.ci :=
    (adjustArguments_above (L := L.setFrame L.ci { L.frame with savedpc := L.savedpc }) htop hadj).1.ci
  have hget : (L.setFrame L.ci { L.frame with savedpc := L.savedpc }).get func = L.get func := rfl
  simp only [precallFunction, hget, hcl, hadj, Loop.ok_bind, incCi, hci, if_pos hroom]
  exact ⟨_, rfl, enterLua_passed hmax ⟨hplaced.params, hplaced.hidden, hplaced.arg⟩⟩

omit [LuaNumber N] in
theorem protoOf_function {v : TValue N} (h : H.protoOf v = some p) : v.ttype = .LUA_TFUNCTION := by
  cases v <;> first | rfl | cases h

omit [LuaNumber N] in
/-- The object comes before the arguments of its tag method. -/
theorem arguments_hole {tm : TValue N} {M : Stack N} (htop : func < L.top)
    (hM : tryfuncTM tm func L = .ok M) : arguments M func = L.get func :: arguments L func := by
  have hfun : tm.ttype = .LUA_TFUNCTION := by
    by_contra hno
    simp [tryfuncTM, hno] at hM
  rw [tryfuncTM_eq hfun] at hM
  have hcount : L.top + 1 - func - 1 = (L.top - func - 1) + 1 := by omega
  have hget : ∀ j < L.top - func, M.get (func + 1 + j) = L.get (func + j) := by
    intro j hj
    cases hM
    have hout : fill (fill L.up.stack (func + 1) (L.top - func) fun i => L.get (func + i)) func 1
        (fun _ => tm) (func + 1 + j) =
        fill L.up.stack (func + 1) (L.top - func) (fun i => L.get (func + i)) (func + 1 + j) :=
      fill_out (.inr (by omega))
    exact hout.trans (fill_in hj)
  have hMtop : M.top = L.top + 1 := by
    cases hM
    rfl
  simp only [arguments, values, hMtop, hcount, List.range_succ_eq_map, List.map_cons, List.map_map]
  rw [hget 0 (by omega), Nat.add_zero]
  congr 1
  apply List.map_congr_left
  intro j hj
  have hj' := List.mem_range.mp hj
  have hindex : func + (j + 1) = func + 1 + j := by omega
  exact (hget (j + 1) (by omega)).trans (by rw [hindex])

/-- A Lua function is entered with its arguments, whether it is called itself or as a tag method. -/
theorem luaDPrecall_passed {tm : TValue N} (hp : H.protoOf (callee tm L func) = some p)
    (hmax : p.numparams ≤ p.maxstacksize) (hdepth : 0 < H.depth) (hroom : L.ci + 1 < H.limit)
    (htop : func < L.top) (hint : (passed L func).length ≤ 2 ^ 31) :
    ∃ E, luaDPrecall H tm addr func nresults L = .ok (.PCRLUA, E) ∧
      Passed p (passed L func) addr func E := by
  unfold callee at hp
  unfold passed at hint ⊢
  rw [luaDPrecall]
  split_ifs at hp hint ⊢ with hfun
  · exact precallFunction_passed hp hmax hdepth hroom htop hint
  · have htm := protoOf_function hp
    obtain ⟨M, hM⟩ : ∃ M, tryfuncTM tm func L = .ok M := ⟨_, tryfuncTM_eq htm L func⟩
    obtain ⟨habove, hMtop⟩ := tryfuncTM_above hM
    have hargs := arguments_hole htop hM
    have hMget : M.get func = tm := by
      rw [tryfuncTM_eq htm] at hM
      cases hM
      exact fill_in (m := fill L.up.stack (func + 1) (L.top - func) fun i => L.get (func + i))
        (f := fun _ => tm) Nat.zero_lt_one
    rw [← hargs] at hint ⊢
    rw [← hMget] at hp
    obtain ⟨E, hE, hpassed⟩ := @precallFunction_passed _ _ H addr func nresults p M hp hmax hdepth
      (by rw [habove.ci]; exact hroom) (by omega) hint
    simp only [hM, Loop.ok_bind]
    exact ⟨E, hE, hpassed⟩

end Entering

/-- The results that an action returns. -/
def results (L : Stack N) : Action N → List (TValue N)
  | .opReturn _ a b => values L (L.base + a) ((setResults a b L).top - (L.base + a))
  | .returnC n => values L (L.top - n) n
  | _ => []

/-- `OP_VARARG` delivers the extra arguments, with nil up to the count that is asked for. -/
def Delivers (p : Proto N) (extra : List (TValue N)) (L : Stack N) : Prop :=
  ∀ a b, ∃ n, n = (if b = 0 then extra.length else b - 1) ∧
    (opVararg p a b L).top = (if b = 0 then L.base + a + n else L.top) ∧
    (∀ j < n, (opVararg p a b L).get (L.base + a + j) = extra.getD j .nil) ∧
    ∀ s, s < L.base + a ∨ L.base + a + n ≤ s → (opVararg p a b L).get s = L.get s

/-- The caller `L` finds results in place of the function at `func`: `wanted` of them, or all when it is
negative. -/
structure Returned (L : Stack N) (func : Nat) (wanted : Int) (rs : List (TValue N)) (C : Stack N) :
    Prop where
  ci : C.ci = L.ci
  base : C.base = L.frame.base
  savedpc : C.savedpc = L.savedpc
  top : C.top = func + if wanted < 0 then rs.length else wanted.toNat
  get : ∀ i, func + i < C.top → C.get (func + i) = rs.getD i .nil

section Running

variable [LuaNumber N] {H : Host N} {E L : Stack N} {outer : List Handler} {s : State N}
  {p : Proto N} {func addr : Nat} {wanted : Int} {args : List (TValue N)}

/-- The extra arguments are where the call has left them. -/
theorem Within.delivers (h : Within H E outer s) (hci : s.L.ci = E.ci)
    (htail : s.L.frame.tailcalls = E.frame.tailcalls) (hpassed : Passed p args addr func E)
    (hbase : E.base = E.frame.base) (hfunc : E.frame.func = func) (hvararg : p.isVararg ≠ 0) :
    Delivers p (args.drop p.numparams) s.L := by
  rw [Stack.frame, hci] at htail
  obtain ⟨hframe, hget⟩ := h.same htail
  obtain ⟨hplace, hextra⟩ := hpassed.hidden hvararg
  have hsfunc : s.L.frame.func = func := by rw [Stack.frame, hci, hframe, ← hfunc]
  have hsbase : s.L.frame.base = E.base := by rw [Stack.frame, hci, hframe, hbase]
  have hn : s.L.frame.base - s.L.frame.func - p.numparams - 1 = args.length - p.numparams := by
    rw [hsfunc, hsbase, hplace]
    omega
  have hvals : ∀ j, s.L.extra p j = (args.drop p.numparams).getD j .nil := by
    intro j
    simp only [Stack.extra, hn, List.getD_eq_getElem?_getD, List.getElem?_drop]
    split_ifs with hj
    · rw [hsfunc, hget _ (by omega) (by omega), hextra j hj, List.getD_eq_getElem?_getD]
    · rw [List.getElem?_eq_none (by omega)]
      rfl
  intro a b
  rw [opVararg_eq (by omega) h.base]
  refine ⟨varargCount p b s.L, ?_, rfl, fun j hj => ?_, fun t ht => fill_out ht⟩
  · simp only [varargCount, hn, List.length_drop]
  · rw [← hvals]
    exact fill_in hj

omit [LuaNumber N] in
/-- What `luaD_poscall` leaves to the caller. -/
theorem Within.returned {firstResult : Nat} {e : Entered} (h : Within H E outer s) (hci : s.L.ci = E.ci)
    (hE : Entry H L func wanted e E) (hfirst : s.L.base ≤ firstResult) :
    (luaDPoscall firstResult s.L).1 = wanted + 1 ∧
    Returned L func wanted (values s.L firstResult (s.L.top - firstResult))
      (luaDPoscall firstResult s.L).2 := by
  obtain ⟨hfunc, hwanted⟩ := h.place
  rw [← hci, ← Stack.frame] at hfunc hwanted
  rw [hE.func] at hfunc
  rw [hE.nresults] at hwanted
  have hlt := (h.func s.L.ci h.ci (Nat.le_refl _)).2
  rw [← Stack.frame, ← h.base] at hlt
  have hlast : s.L.ci - 1 = L.ci := by
    have hEci := hE.ci
    omega
  have hcaller : s.L.frames (s.L.ci - 1) = { L.frame with savedpc := L.savedpc } := by
    rw [hlast, h.lower L.ci (by rw [hE.ci]; exact Nat.lt_succ_self _), hE.caller]
  rw [luaDPoscall_eq s.L (by omega)]
  simp only [hcaller, hfunc, hwanted]
  refine ⟨trivial, hlast, rfl, rfl, ?_, fun i hi => ?_⟩
  · simp only [total, values_length]
  · have hin : i < total wanted (s.L.top - firstResult) := by
      simp only at hi
      omega
    have hvalue : fill s.L.up.stack func (total wanted (s.L.top - firstResult))
        (s.L.result firstResult) (func + i) = _ := fill_in hin
    refine hvalue.trans ?_
    rw [values_getD, Stack.result]
    split_ifs <;> first | rfl | omega

omit [LuaNumber N] in
theorem raise_returned {n : Nat} {v : TValue N} {b : Int} {s' : State N} :
    s.raise n v ≠ .returned b s' := by
  unfold State.raise
  intro h
  cases hs : s.handlers with
  | nil => simp [hs] at h
  | cons x rest =>
    simp only [hs] at h
    split_ifs at h

omit [LuaNumber N] in
theorem enter_returned {n : Nat} {msg : TValue N} {r : Except (CallError N) (Entered × Stack N)}
    {b : Int} {s' : State N} : s.enter n msg r ≠ .returned b s' := by
  intro h
  cases r with
  | ok r => cases h
  | error e => cases e <;> first | exact raise_returned h | cases h

/-- A function returns by `OP_RETURN`, or as a C function. -/
theorem exec_returned {a : Action N} {b : Int} {s' : State N} {e : Entered} (h : Within H E outer s)
    (hE : Entry H L func wanted e E) (hgo : exec H E.ci outer.length s a = .returned b s') :
    b = wanted + 1 ∧ Returned L func wanted (results s.L a) s'.L := by
  cases a with
  | opReturn pc a c =>
    simp only [exec, opReturn_eq] at hgo
    split_ifs at hgo with hguard
    have hclosed := h.closeFrame pc a c
    unfold State.leave at hgo
    split_ifs at hgo with hci
    cases hgo
    have hreturned := hclosed.returned hci hE (Nat.le_add_right s.L.base a)
    have hvalues : values (closeFrame pc a c s.L) (s.L.base + a)
        ((closeFrame pc a c s.L).top - (s.L.base + a)) = results s.L (.opReturn pc a c) := by
      have hstack := (luaFClose_spec h.ordered s.L.base).2.1
      simp only [results, values, closeFrame, Stack.get, hstack]
    rw [← hvalues]
    exact hreturned
  | returnC n =>
    simp only [exec] at hgo
    split_ifs at hgo with hguard
    unfold State.leave at hgo
    split_ifs at hgo with hci
    cases hgo
    have hfirst : s.L.base ≤ s.L.top - n := by omega
    have hreturned := h.returned hci hE hfirst
    have hcount : s.L.top - (s.L.top - n) = n := by omega
    rw [hcount] at hreturned
    exact hreturned
  | getReg i | setTop i | pcall i =>
    simp only [exec] at hgo
    split_ifs at hgo
  | setReg i v | findupval i v =>
    simp only [exec] at hgo
    split_ifs at hgo
  | endPcall =>
    simp only [exec] at hgo
    cases hs : s.handlers with
    | nil => simp [hs] at hgo
    | cons x rest =>
      simp only [hs] at hgo
      split_ifs at hgo
  | getUpval u =>
    simp only [exec] at hgo
    cases hu : s.L.readUpval u <;> simp [hu] at hgo
  | setUpval u v =>
    simp only [exec] at hgo
    cases hu : s.L.readUpval u <;> simp [hu] at hgo
  | vararg a b =>
    simp only [exec] at hgo
    cases hp : H.protoOf (s.L.funcAt s.L.ci) with
    | none => simp [hp] at hgo
    | some p =>
      simp only [hp] at hgo
      split_ifs at hgo
  | opCall tm addr pc a b c msg =>
    simp only [exec] at hgo
    split_ifs at hgo
    exact absurd hgo enter_returned
  | luaDCall tm addr a nresults msg =>
    simp only [exec] at hgo
    split_ifs at hgo
    exact absurd hgo enter_returned
  | tailcall tm addr pc a b msg =>
    simp only [exec] at hgo
    split_ifs at hgo
    exact absurd hgo enter_returned
  | throw v => exact absurd hgo raise_returned
  | _ => cases hgo

end Running

/-- A vararg function of one parameter that needs the `arg` table. -/
def oldVararg : Proto Int := ⟨[], [], [], 0, 0, 0, 1, 7, 3⟩

def oldHost : Host Int := ⟨fun _ => .lua oldVararg, 200, fun _ => 0, 3⟩

/-- A call with three arguments. -/
def threeArguments : Stack Int where
  top := 6
  base := 2
  savedpc := 1
  ci := 1
  frames _ := ⟨2, 1, 6, 0, 0, 0⟩
  up := ⟨fun s => if s = 2 then .function 0 else .number s, fun _ => none, [], []⟩
  tables _ := none

end UgmeeLua.Calls

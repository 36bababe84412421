import UgmeeLua.Vm.Accesses

namespace UgmeeLua

open Loop OpCode OpArgMask OpMode

variable {N W E : Type} [LuaNumber N]

/-- The function is inside of its code, at an instruction that the checker has come to. -/
structure Inside (p : Proto N) (f : Frame N W) : Prop where
  visited : Visited p f.pc
  lt : f.pc < p.sizecode

/-- What the checker leaves to the interpreter, at the place `pc` behind the instruction `prev`:
`OP_LOADBOOL` does not skip to the count of an `OP_SETLIST`; the count is not the last word of the
code; `OP_TFORLOOP` has room for its call; and an operand count is taken from `top` right behind an
instruction that leaves it open. -/
def Safe (p : Proto N) (prev : Option Instruction) (pc : Nat) : Prop :=
  ∀ i, p.code[pc]? = some i →
    (i.op = OP_LOADBOOL → i.c ≠ 0 → (p.code[pc + 1]?).any Proto.setlistCount = false) ∧
    (Proto.setlistCount i = true → pc + 2 < p.sizecode) ∧
    (i.op = OP_TFORLOOP → i.a + 5 < p.maxstacksize) ∧
    (luaGCheckopenop i = true → prev.any opens = true)

section Control

variable {H : Host N W E} {p : Proto N} {f : Frame N W} {pc : Nat} {i : Instruction}

omit [LuaNumber N]

theorem inside_next (hacc : luaGCheckcode p = true) (hv : Visited p pc)
    (hi : p.code[pc]? = some i) (hop : i.op ≠ OP_RETURN) (hc : Proto.setlistCount i = false)
    (hf : f.pc = pc + 1) : Inside p f := by
  have hn := visited_next hacc hv hi
  rw [hc, if_neg (by decide), ← hf] at hn
  exact ⟨hn, by rw [hf]; exact succ_lt_sizecode hacc hi hop⟩

theorem not_setlistCount (h : i.op ≠ OP_SETLIST) : Proto.setlistCount i = false := by
  simp [Proto.setlistCount, h]

theorem inside_dest (hacc : luaGCheckcode p = true) (h : Checked p pc i)
    (hm : i.op.modes.m = iAsBx) (hb : i.op.modes.b = OpArgR) :
    ∃ dest : Nat, (pc + 1 + i.sbx : Int) = dest ∧ ∀ f : Frame N W, f.pc = dest → Inside p f := by
  obtain ⟨dest, hd, hlt, hcount⟩ := h.dest hm hb
  refine ⟨dest, hd, fun f hf => ?_⟩
  have hv := visited_of_not_count hacc hlt hcount
  exact ⟨hf ▸ hv, hf ▸ hlt⟩

theorem inside_jump (hacc : luaGCheckcode p = true) (h : Checked p pc i)
    (hm : i.op.modes.m = iAsBx) (hb : i.op.modes.b = OpArgR) (hf : f.pc = pc + 1) :
    ∃ dest : Nat, (f.pc + i.sbx : Int) = dest ∧ ∀ f' : Frame N W, f'.pc = dest → Inside p f' := by
  obtain ⟨dest, hd, hin⟩ := inside_dest (W := W) hacc h hm hb
  refine ⟨dest, ?_, hin⟩
  rw [← hd, hf]
  push_cast
  rfl

theorem opIs_iff {pc : Nat} {op : OpCode} :
    p.opIs pc op = true ↔ ∃ i, p.code[pc]? = some i ∧ i.op = op := by
  unfold Proto.opIs
  cases p.code[pc]? <;> simp

/-- A test goes on behind the jump that follows it, or where that jump leads. -/
theorem testJump_meets (hacc : luaGCheckcode p = true) (hv : Visited p pc)
    (hi : p.code[pc]? = some i) (h : Checked p pc i) (ht : i.op.modes.t = true)
    (hop : i.op ≠ OP_SETLIST) (hf : f.pc = pc + 1) (taken : Bool) :
    Meets (testJump p f taken : Except (Halt N E) _) (Inside p) NoFault := by
  obtain ⟨hlt, hjmp⟩ := h.test ht
  obtain ⟨j, hj, hjop⟩ := opIs_iff.mp hjmp
  have hvj := visited_next hacc hv hi
  rw [not_setlistCount hop, if_neg (by decide)] at hvj
  have hjc : Proto.setlistCount j = false := not_setlistCount (by simp [hjop])
  unfold testJump
  cases taken with
  | true =>
    have hcj := checked_of_visited hacc hvj hj
    obtain ⟨dest, hd, hin⟩ := inside_dest (W := W) hacc hcj (by rw [hjop]; rfl) (by rw [hjop]; rfl)
    rw [if_pos rfl, hf]
    apply meets_bind (fetch_meets hj)
    intro j' (hj' : j' = j)
    rw [hj']
    have hdest : (f.pc : Int) + (j.sbx + 1) = dest := by rw [← hd, hf]; push_cast; omega
    exact meets_mono (jump_meets hdest) (fun f' hf' => hin f' hf'.1) fun _ h => h
  | false =>
    have hn := visited_next hacc hvj hj
    rw [hjc, if_neg (by decide)] at hn
    have hpc : f.skip.pc = pc + 1 + 1 := congrArg (· + 1) hf
    exact meets_ok ⟨hpc ▸ hn, by rw [hpc]; exact hlt⟩

/-- Where an instruction leaves the function, if it does not end the activation. -/
def Goes (p : Proto N) (i : Instruction) : Pass (Frame N W) (Exit N) → Prop
  | .again f => Inside p f ∧ (opens i = true → f.top.isSome = true)
  | .done _ => True

theorem goes_map {x : Except (Halt N E) (Frame N W)} (ho : opens i = false)
    (hx : Meets x (Inside p) NoFault) : Meets (x.map .again) (Goes p i) NoFault :=
  meets_map hx fun _ hin => ⟨hin, fun h => absurd (ho.symm.trans h) (by decide)⟩

theorem loadbool_meets (hacc : luaGCheckcode p = true) (hv : Visited p pc)
    (hi : p.code[pc]? = some i) (hop : i.op = OP_LOADBOOL)
    (hs : i.c ≠ 0 → (p.code[pc + 1]?).any Proto.setlistCount = false) (hf : f.pc = pc + 1) :
    Meets (do
        let f ← f.setReg p i.a (.boolean (i.b ≠ 0))
        pure (.again (if i.c ≠ 0 then f.skip else f)) : Except (Halt N E) _) (Goes p i) NoFault := by
  have h := checked_of_visited hacc hv hi
  have hcount := not_setlistCount (i := i) (by simp [hop])
  have ho : opens i = true → False := by simp [opens, hop]
  apply meets_bind (setReg_meets h.a _)
  intro g hg
  refine meets_pure ⟨?_, fun h => (ho h).elim⟩
  have hpc : g.pc = pc + 1 := hg.1.trans hf
  have hvj := visited_next hacc hv hi
  rw [hcount, if_neg (by decide)] at hvj
  split_ifs with hc
  · -- the instruction that is skipped has been checked, and has no count behind it
    have hlt : pc + 2 < p.sizecode := by
      have := h.opcode
      simpa [checkOpcode, hop, hc] using this
    obtain ⟨j, hj⟩ : ∃ j, p.code[pc + 1]? = some j :=
      ⟨_, List.getElem?_eq_getElem (by exact Nat.lt_of_succ_lt hlt)⟩
    have hjc := hs hc
    rw [hj] at hjc
    have hn := visited_next hacc hvj hj
    rw [show Proto.setlistCount j = false from hjc, if_neg (by decide)] at hn
    have hskip : g.skip.pc = pc + 2 := congrArg (· + 1) hpc
    exact ⟨hskip ▸ hn, hskip ▸ hlt⟩
  · exact ⟨hpc ▸ hvj, hpc ▸ succ_lt_sizecode hacc hi (by simp [hop])⟩

theorem capture_meets (h : Checked p pc i) (hop : i.op = OP_GETUPVAL ∨ i.op = OP_MOVE) :
    Meets (capture p f i : Except (Halt N E) _) (fun _ => True) NoFault := by
  unfold capture
  rcases hop with hop | hop
  · have hb : i.b < p.nups := by simpa [checkOpcode, hop] using h.opcode
    rw [if_pos hop]
    exact meets_map (upvalue_meets hb) fun _ _ => trivial
  · have hb : i.b < p.maxstacksize := h.regB (by rw [hop]; rfl) (by rw [hop]; rfl)
    rw [if_neg (by simp [hop])]
    exact meets_map (reg_meets hb) fun _ _ => trivial

/-- The checker has come to every pseudo-instruction, and to what follows them. -/
theorem captures_meets (hacc : luaGCheckcode p = true) (n : Nat) {pc : Nat} (hv : Visited p pc)
    (hlt : pc < p.sizecode) (hops : ∀ j < n,
      p.opIs (pc + j) OP_GETUPVAL = true ∨ p.opIs (pc + j) OP_MOVE = true) :
    Meets (captures p f pc n : Except (Halt N E) _) (fun _ => True) NoFault ∧
      Visited p (pc + n) ∧ pc + n < p.sizecode := by
  induction n generalizing pc with
  | zero => exact ⟨trivial, hv, hlt⟩
  | succ n ih =>
    obtain ⟨i, hi, hop⟩ : ∃ i, p.code[pc]? = some i ∧ (i.op = OP_GETUPVAL ∨ i.op = OP_MOVE) := by
      rcases hops 0 (Nat.succ_pos n) with h | h
      · obtain ⟨i, hi, hop⟩ := opIs_iff.mp h
        exact ⟨i, hi, .inl hop⟩
      · obtain ⟨i, hi, hop⟩ := opIs_iff.mp h
        exact ⟨i, hi, .inr hop⟩
    have hn := visited_next hacc hv hi
    rw [not_setlistCount (by rcases hop with h | h <;> simp [h]), if_neg (by decide)] at hn
    have hpc : ∀ j, pc + 1 + j = pc + (j + 1) := by omega
    have hlt' := succ_lt_sizecode hacc hi (by rcases hop with h | h <;> simp [h])
    obtain ⟨hrest, hend⟩ := ih hn hlt'
      fun j hj => by rw [hpc]; exact hops (j + 1) (Nat.succ_lt_succ hj)
    refine ⟨?_, hpc n ▸ hend⟩
    apply meets_bind (fetch_meets hi)
    intro i' (hi' : i' = i)
    rw [hi']
    apply meets_bind (capture_meets (checked_of_visited hacc hv hi) hop)
    intro x _
    apply meets_bind hrest
    intro xs _
    trivial

end Control

section Steps

variable {H : Host N W E} {p : Proto N} {f : Frame N W} {pc : Nat} {i : Instruction}

omit [LuaNumber N]

theorem call_bounds (h : Checked p pc i) (hop : i.op = OP_CALL ∨ i.op = OP_TAILCALL) :
    (i.b ≠ 0 → i.a + 1 + (i.b - 1) ≤ p.maxstacksize) ∧
    (i.c ≠ 0 → i.a + (i.c - 1) ≤ p.maxstacksize) := by
  have ha := h.a
  have hcheck : (i.b = 0 ∨ (i.a + i.b - 1 : Int) < p.maxstacksize) ∧
      (i.c ≠ 0 → i.c = 1 ∨ (i.a + (i.c - 1 : Int) - 1) < p.maxstacksize) := by
    have hcode := h.opcode
    rcases hop with hop | hop <;>
    · simp only [checkOpcode, hop, checkreg, Bool.and_eq_true, Bool.or_eq_true,
        decide_eq_true_eq] at hcode
      refine ⟨hcode.1, fun hc => ?_⟩
      have hres := hcode.2
      rw [if_neg hc] at hres
      simpa using hres
  omega

theorem execCall_meets (h : Checked p pc i) (hop : i.op = OP_CALL)
    (ht : i.b = 0 → f.top.isSome = true) :
    Meets (execCall H p f i) (fun f' => f'.pc = f.pc ∧ (i.c = 0 → f'.top.isSome = true))
      NoFault := by
  obtain ⟨hb, hc⟩ := call_bounds h (.inl hop)
  apply meets_bind (reg_meets h.a)
  intro g _
  apply meets_bind (operands_meets hb ht)
  intro args _
  apply meets_bind (protect_meets _)
  rintro ⟨vs, f'⟩ hk
  exact meets_mono (results_meets vs hc) (fun _ hr => ⟨hr.1.trans hk.1, hr.2⟩) fun _ h => h

theorem execTailcall_meets (h : Checked p pc i) (hop : i.op = OP_TAILCALL)
    (ht : i.b = 0 → f.top.isSome = true) (hin : ∀ f' : Frame N W, f'.pc = f.pc → Inside p f') :
    Meets (execTailcall H p f i) (Goes p i) NoFault := by
  obtain ⟨hb, -⟩ := call_bounds h (.inr hop)
  apply meets_bind (reg_meets h.a)
  intro g _
  apply meets_bind (operands_meets hb ht)
  intro args _
  apply meets_bind (protect_meets _)
  rintro ⟨vs, f'⟩ hk
  cases vs with
  | none => exact meets_pure trivial
  | some vs => exact meets_pure ⟨hin _ hk.1, fun _ => rfl⟩

theorem setlist_meets (h : Checked p pc i) (hop : i.op = OP_SETLIST)
    (ht : i.b = 0 → f.top.isSome = true) (hf : f.pc = pc + 1)
    (hc : i.c = 0 → pc + 1 < p.sizecode) :
    Meets (execSetlist H p f i) (fun f' => f'.pc = if i.c = 0 then pc + 2 else pc + 1)
      NoFault := by
  have hb : i.b ≠ 0 → i.a + 1 + i.b ≤ p.maxstacksize := by
    intro hb
    have hcode := h.opcode
    simp only [checkOpcode, hop, checkreg, hb, decide_false, Bool.false_or,
      decide_eq_true_eq] at hcode
    omega
  apply meets_bind (operands_meets hb ht)
  intro vs _
  have hf' : (if i.b = 0 then f.resetTop else f).pc = pc + 1 := by
    split_ifs <;> exact hf
  simp only
  generalize (if i.b = 0 then f.resetTop else f) = f' at hf'
  have hbatch : Meets (setlistBatch p f' i.c : Except (Halt N E) _)
      (fun r => r.2.pc = if i.c = 0 then pc + 2 else pc + 1) NoFault := by
    unfold setlistBatch
    split_ifs with h0
    · rw [hf']
      have hw : p.code[pc + 1]? = some _ := List.getElem?_eq_getElem (hc h0)
      exact meets_map (fetch_meets hw) fun _ _ => congrArg (· + 1) hf'
    · exact meets_ok hf'
  apply meets_bind hbatch
  rintro ⟨c, f''⟩ hpc
  apply meets_bind (reg_meets h.a)
  intro ra _
  apply meets_ite
  · intro _
    apply meets_bind (protect_meets _)
    rintro ⟨_, g⟩ hg
    exact meets_pure (hg.1.trans hpc)
  · intro _
    exact meets_pure hpc

theorem vararg_meets (h : Checked p pc i) (hop : i.op = OP_VARARG) :
    Meets (execVararg p f i : Except (Halt N E) _)
      (fun f' => f'.pc = f.pc ∧ (i.b = 0 → f'.top.isSome = true)) NoFault := by
  unfold execVararg
  split_ifs with hb
  · exact meets_ok ⟨rfl, fun _ => rfl⟩
  · have hcode := h.opcode
    simp only [checkOpcode, hop, checkreg, Bool.and_eq_true, decide_eq_true_eq] at hcode
    refine meets_mono (setRegs_meets _ ?_) (fun _ hk => ⟨hk.1, fun h0 => absurd h0 hb⟩) fun _ h => h
    rw [List.length_map, List.length_range]
    omega

theorem tforloop_meets (hacc : luaGCheckcode p = true) (hv : Visited p pc)
    (hi : p.code[pc]? = some i) (hop : i.op = OP_TFORLOOP) (hroom : i.a + 5 < p.maxstacksize)
    (hf : f.pc = pc + 1) : Meets (execTforloop H p f i) (Inside p) NoFault := by
  have h := checked_of_visited hacc hv hi
  have hc : 1 ≤ i.c ∧ i.a + 2 + i.c < p.maxstacksize := by
    have hcode := h.opcode
    simp only [checkOpcode, hop, checkreg, Bool.and_eq_true, decide_eq_true_eq] at hcode
    omega
  have hjump : ∀ (f' : Frame N W) (taken : Bool), f'.pc = pc + 1 →
      Meets (testJump p f' taken : Except (Halt N E) _) (Inside p) NoFault := fun f' taken hf' =>
    testJump_meets hacc hv hi h (by rw [hop]; rfl) (by simp [hop]) hf' taken
  apply meets_bind (reg_meets h.a)
  intro g _
  apply meets_bind (reg_meets (by omega))
  intro state _
  apply meets_bind (reg_meets (by omega))
  intro control _
  apply meets_bind (setRegs_meets _ (by simp only [List.length_cons, List.length_nil]; omega))
  intro f1 h1
  apply meets_bind (protect_meets _)
  rintro ⟨vs, f2⟩ h2
  apply meets_bind (setRegs_meets _ (by simp only [List.length_map, List.length_range]; omega))
  intro f3 h3
  have hpc : f3.pc = pc + 1 := ((h1.trans h2).trans h3).1.trans hf
  apply meets_bind (reg_meets (by omega))
  intro first _
  apply meets_ite
  · intro _
    exact hjump _ _ hpc
  · intro _
    apply meets_bind (setReg_meets (by omega) _)
    intro f4 h4
    exact hjump _ _ (h4.1.trans hpc)

theorem closure_meets (hacc : luaGCheckcode p = true) (hv : Visited p pc)
    (hi : p.code[pc]? = some i) (hop : i.op = OP_CLOSURE) (hf : f.pc = pc + 1) :
    Meets (execClosure H p f i) (Inside p) NoFault := by
  have h := checked_of_visited hacc hv hi
  have hn := visited_next hacc hv hi
  rw [not_setlistCount (by simp [hop]), if_neg (by decide)] at hn
  have hcode := h.opcode
  simp only [checkOpcode, hop] at hcode
  unfold execClosure
  cases hq : p.p[i.bx]? with
  | none => simp [hq] at hcode
  | some q =>
    simp only [hq, Bool.and_eq_true, decide_eq_true_eq, List.all_eq_true, List.mem_range,
      Bool.or_eq_true] at hcode
    obtain ⟨hlt, hops⟩ := hcode
    have hassoc : ∀ j, pc + 1 + j = pc + (j + 1) := by omega
    obtain ⟨hcap, hend, hin⟩ := captures_meets (f := f) (E := E) hacc q.nups hn
      (succ_lt_sizecode hacc hi (by simp [hop])) fun j hj => by rw [hassoc]; exact hops j hj
    simp only
    rw [hf]
    apply meets_bind hcap
    intro xs _
    apply meets_bind (protect_meets _)
    rintro ⟨v, g⟩ hg
    apply meets_bind (setReg_meets h.a _)
    intro g' hg'
    have hpc : g'.pc + q.nups = pc + 1 + q.nups := by rw [(hg.trans hg').1, hf]
    exact meets_pure ⟨hpc ▸ hend, hpc ▸ hin⟩

theorem compare_meets (hacc : luaGCheckcode p = true) (hv : Visited p pc)
    (hi : p.code[pc]? = some i) (hm : i.op.modes = opmode 1 0 OpArgK OpArgK iABC)
    (hop : i.op ≠ OP_SETLIST) (hf : f.pc = pc + 1)
    (cmp : TValue N → TValue N → Foreign N W E Bool) :
    Meets (execCompare p f i cmp) (Inside p) NoFault := by
  have h := checked_of_visited hacc hv hi
  have hB := h.argB (by rw [hm]; rfl)
  have hC := h.argC (by rw [hm]; rfl)
  rw [hm] at hB hC
  apply meets_bind (rk_meets hB)
  intro rb _
  apply meets_bind (rk_meets hC)
  intro rc _
  apply meets_bind (protect_meets _)
  rintro ⟨r, f'⟩ hk
  exact testJump_meets hacc hv hi h (by rw [hm]; rfl) hop (hk.1.trans hf) _

theorem for_bound (h : Checked p pc i) (hop : i.op = OP_FORLOOP ∨ i.op = OP_FORPREP) :
    i.a + 3 < p.maxstacksize := by
  have hcode := h.opcode
  rcases hop with hop | hop <;>
  · simp only [checkOpcode, hop, checkreg, decide_eq_true_eq] at hcode
    omega

end Steps

section Numeric

variable {H : Host N W E} {p : Proto N} {f : Frame N W} {pc : Nat} {i : Instruction}

theorem forNumber_meets {r : Nat} (h : r < p.maxstacksize) (msg : String) :
    Meets (forNumber H p f r msg) (fun x => Kept f x.2) NoFault := by
  apply meets_bind (reg_meets h)
  intro v _
  cases luaVTonumber v with
  | none => exact meets_error fun x hx => by cases hx
  | some n =>
    apply meets_bind (setReg_meets h _)
    intro g hg
    exact meets_pure hg

theorem forprep_meets (h : Checked p pc i) (hop : i.op = OP_FORPREP) {dest : Nat}
    (hd : f.pc + i.sbx = dest) :
    Meets (execForprep H p f i) (fun f' => f'.pc = dest) NoFault := by
  have hb := for_bound h (.inr hop)
  apply meets_bind (forNumber_meets h.a _)
  rintro ⟨init, f1⟩ h1
  apply meets_bind (forNumber_meets (by omega) _)
  rintro ⟨_, f2⟩ h2
  apply meets_bind (forNumber_meets (by omega) _)
  rintro ⟨step, f3⟩ h3
  apply meets_bind (setReg_meets h.a _)
  intro f4 h4
  have hpc : f4.pc = f.pc := (((h1.trans h2).trans h3).trans h4).1
  exact meets_mono (jump_meets (hpc ▸ hd)) (fun _ hj => hj.1) fun _ h => h

theorem execForloop_meets (h : Checked p pc i)
    (hop : i.op = OP_FORLOOP) {dest : Nat} (hd : f.pc + i.sbx = dest) :
    Meets (execForloop H p f i) (fun f' => f'.pc = dest ∨ f'.pc = f.pc) NoFault := by
  have hb := for_bound h (.inl hop)
  apply meets_bind (reg_meets (by omega))
  intro step _
  apply meets_bind (reg_meets h.a)
  intro idx _
  apply meets_bind (reg_meets (by omega))
  intro limit _
  apply meets_ite
  · intro _
    apply meets_bind (jump_meets hd)
    intro f1 h1
    apply meets_bind (setReg_meets h.a _)
    intro f2 h2
    refine meets_mono (setReg_meets hb _) (fun f3 h3 => .inl ?_) fun _ h => h
    exact ((h2.trans h3).1).trans h1.1
  · intro _
    exact meets_pure (.inr rfl)

end Numeric

section Runs

variable {H : Host N W E} {p : Proto N} {f : Frame N W} {pc : Nat} {i : Instruction}
  {prev : Option Instruction}

theorem opens_straight (h : i.op ∈ straight) : opens i = false ∧ i.op ≠ OP_RETURN ∧
    i.op ≠ OP_SETLIST := by
  simp only [straight, List.mem_cons, List.not_mem_nil, or_false] at h
  rcases h with h | h | h | h | h | h | h | h | h | h | h | h | h | h | h | h | h | h | h | h | h |
    h | h | h | h | h | h | h <;> simp [opens, h]

/-- One turn of the interpreter: no access goes astray, and the checker has come to the place where
the function goes on. -/
theorem execute_meets (hacc : luaGCheckcode p = true) (hv : Visited p pc)
    (hi : p.code[pc]? = some i) (hs : Safe p prev pc) (hf : f.pc = pc + 1)
    (htop : prev.any opens = true → f.top.isSome = true) :
    Meets (execute H p f i) (Goes p i) NoFault := by
  have h := checked_of_visited hacc hv hi
  obtain ⟨hskip, hcount, hroom, hopen⟩ := hs i hi
  have ht : luaGCheckopenop i = true → f.top.isSome = true := fun ho => htop (hopen ho)
  by_cases hst : i.op ∈ straight
  · obtain ⟨ho, hret, hset⟩ := opens_straight hst
    refine meets_mono (execute_straight h hst) (fun r hr => ?_) fun _ h => h
    cases r with
    | done r => trivial
    | again f' =>
      have hin := inside_next hacc hv hi hret (not_setlistCount hset) (hr.trans hf)
      exact ⟨hin, fun hop => absurd (ho.symm.trans hop) (by decide)⟩
  have hnext : i.op ≠ OP_RETURN → i.op ≠ OP_SETLIST → ∀ f' : Frame N W, f'.pc = f.pc →
      Inside p f' := fun hret hset f' hf' =>
    inside_next hacc hv hi hret (not_setlistCount hset) (hf'.trans hf)
  obtain ⟨op, a, b, c⟩ := i
  cases op
  case OP_LOADBOOL => exact loadbool_meets hacc hv hi rfl (hskip rfl) hf
  case OP_JMP =>
    obtain ⟨dest, hd, hin⟩ := inside_jump hacc h rfl rfl hf
    exact goes_map rfl (meets_mono (jump_meets hd) (fun f' hf' => hin f' hf'.1) fun _ h => h)
  case OP_EQ | OP_LT | OP_LE =>
    refine goes_map rfl ?_
    exact compare_meets hacc hv hi rfl (by simp) hf _
  case OP_TEST =>
    apply meets_bind (reg_meets h.a)
    intro ra _
    exact goes_map rfl (testJump_meets hacc hv hi h rfl (by simp) hf _)
  case OP_TESTSET =>
    apply meets_bind (reg_meets (h.regB rfl rfl))
    intro rb _
    apply meets_ite
    · intro _
      apply meets_bind (setReg_meets h.a rb)
      intro g hg
      exact goes_map rfl (testJump_meets hacc hv hi h rfl (by simp) (hg.1.trans hf) _)
    · intro _
      exact goes_map rfl (testJump_meets hacc hv hi h rfl (by simp) hf _)
  case OP_CALL =>
    refine meets_map (execCall_meets h rfl fun hb => ht (by simpa [luaGCheckopenop])) fun f' hf' => ⟨hnext (by simp) (by simp) f' hf'.1, ?_⟩
    intro ho
    exact hf'.2 (by simpa [opens] using ho)
  case OP_TAILCALL =>
    exact execTailcall_meets h rfl (fun hb => ht (by simpa [luaGCheckopenop])) (hnext (by simp) (by simp))
  case OP_RETURN =>
    refine meets_bind (operands_meets (fun hb => ?_) fun hb => ht (by simpa [luaGCheckopenop]))
      fun vs _ => meets_pure trivial
    have ha := h.a
    have hcode := h.opcode
    simp only [checkOpcode, checkreg, Bool.or_eq_true, decide_eq_true_eq] at hcode ha
    show a + (b - 1) ≤ p.maxstacksize
    omega
  case OP_FORLOOP =>
    obtain ⟨dest, hd, hin⟩ := inside_jump hacc h rfl rfl hf
    refine goes_map rfl (meets_mono (execForloop_meets h rfl hd) (fun f' hf' => ?_) fun _ h => h)
    rcases hf' with hf' | hf'
    · exact hin f' hf'
    · exact hnext (by simp) (by simp) f' hf'
  case OP_FORPREP =>
    obtain ⟨dest, hd, hin⟩ := inside_jump hacc h rfl rfl hf
    exact goes_map rfl (meets_mono (forprep_meets h rfl hd) hin fun _ h => h)
  case OP_TFORLOOP => exact goes_map rfl (tforloop_meets hacc hv hi rfl (hroom rfl) hf)
  case OP_SETLIST =>
    have hc : c = 0 → pc + 2 < p.sizecode := fun hc => hcount (by simp [Proto.setlistCount, hc])
    have hset := setlist_meets (H := H) h rfl (fun hb => ht (by simpa [luaGCheckopenop])) hf
      fun h0 => Nat.lt_of_succ_lt (hc h0)
    refine goes_map rfl (meets_mono hset (fun f' hf' => ?_) fun _ h => h)
    have hn := visited_next hacc hv hi
    simp only [Proto.setlistCount, decide_true, Bool.true_and, decide_eq_true_eq] at hn
    rw [← hf'] at hn
    refine ⟨hn, ?_⟩
    rw [hf']
    split_ifs with h0
    · exact hc h0
    · exact succ_lt_sizecode hacc hi (by simp)
  case OP_CLOSURE => exact goes_map rfl (closure_meets hacc hv hi rfl hf)
  case OP_VARARG =>
    refine meets_map (vararg_meets h rfl) fun f' hf' => ⟨hnext (by simp) (by simp) f' hf'.1, ?_⟩
    intro ho
    exact hf'.2 (by simpa [opens] using ho)
  case undefined n =>
    exact meets_pure ⟨hnext (by simp) (by simp) f rfl, fun ho => by simp [opens] at ho⟩
  all_goals exact absurd hst (by simp [straight])

/-- The parameters of a vararg function have registers. -/
def HoldsParameters (p : Proto N) : Prop :=
  p.isVararg ≠ 0 → p.numparams + p.needsArg.toNat ≤ p.maxstacksize

omit [LuaNumber N] in
theorem luaDPrecall_meets (hp : HoldsParameters p) (args : List (TValue N)) (m : Machine N W) :
    Meets (luaDPrecall H p args m) (fun f => f.pc = 0) NoFault := by
  unfold luaDPrecall
  simp only
  apply meets_ite
  · intro _
    exact meets_ok rfl
  · intro hv
    have hroom := hp hv
    apply meets_bind (setRegs_meets _ (by simp only [List.length_map, List.length_range]; omega))
    intro f hf
    apply meets_ite
    · intro harg
      apply meets_bind (protect_meets _)
      rintro ⟨v, g⟩ hg
      rw [harg] at hroom
      exact meets_mono (setReg_meets hroom v) (fun _ hk => ((hf.trans hg).trans hk).1) fun _ h => h
    · intro _
      exact meets_pure hf.1

/-- The states that a function comes to from its call on, each with the instruction before it, when
the interpreter can be relied on wherever the function has come by. -/
inductive SafeRun (H : Host N W E) (p : Proto N) (args : List (TValue N)) (m : Machine N W) :
    Option Instruction → Frame N W → Prop
  | enter {f : Frame N W} (hp : HoldsParameters p) (h : luaDPrecall H p args m = .ok f) :
      SafeRun H p args m none f
  | step {prev : Option Instruction} {i : Instruction} {f f' : Frame N W}
      (hr : SafeRun H p args m prev f) (hs : Safe p prev f.pc) (hi : p.code[f.pc]? = some i)
      (h : luaVExecute H p f = .ok (.again f')) : SafeRun H p args m (some i) f'

theorem luaVExecute_meets (hacc : luaGCheckcode p = true) (hin : Inside p f)
    (hi : p.code[f.pc]? = some i) (hs : Safe p prev f.pc)
    (htop : prev.any opens = true → f.top.isSome = true) :
    Meets (luaVExecute H p f) (Goes p i) NoFault := by
  apply meets_bind (fetch_meets hi)
  intro i' (hi' : i' = i)
  rw [hi']
  apply meets_bind (protect_meets _)
  rintro ⟨_, g⟩ hg
  exact execute_meets hacc hin.visited hi hs hg.1 fun ho => by rw [hg.2]; exact htop ho

theorem safeRun_inside (hacc : luaGCheckcode p = true) {args : List (TValue N)} {m : Machine N W}
    (hr : SafeRun H p args m prev f) :
    Inside p f ∧ (prev.any opens = true → f.top.isSome = true) := by
  induction hr with
  | enter hp h =>
    have h0 := post_of_meets (luaDPrecall_meets hp args m) h
    have hlt : 0 < p.sizecode := by
      have hpre := precheck_of_accepted hacc
      by_contra hn
      have hnil : p.code = [] := List.eq_nil_of_length_eq_zero (by simpa [Proto.sizecode] using hn)
      simp [precheck, hnil] at hpre
    exact ⟨⟨h0 ▸ visited_start p, h0 ▸ hlt⟩, fun ho => by simp at ho⟩
  | step _ hs hi h ih =>
    have hgo := post_of_meets (luaVExecute_meets hacc ih.1 hi hs ih.2) h
    exact hgo

/-- No access of the function goes astray in its runs. -/
def RunsSafely (H : Host N W E) (p : Proto N) (args : List (TValue N)) (m : Machine N W) : Prop :=
  (HoldsParameters p → ∀ x, luaDPrecall H p args m ≠ .error (.fault x)) ∧
  ∀ prev f, SafeRun H p args m prev f →
    f.pc < p.sizecode ∧ (Safe p prev f.pc → ∀ x, luaVExecute H p f ≠ .error (.fault x))

theorem luaGCheckcode_sound (H : Host N W E) (p : Proto N) (args : List (TValue N))
    (m : Machine N W) (hacc : luaGCheckcode p = true) : RunsSafely H p args m := by
  refine ⟨fun hp x hx => ?_, fun prev f hr => ?_⟩
  · exact err_of_meets (luaDPrecall_meets hp args m) hx x rfl
  · obtain ⟨hin, htop⟩ := safeRun_inside hacc hr
    refine ⟨hin.lt, fun hs x hx => ?_⟩
    obtain ⟨i, hi⟩ : ∃ i, p.code[f.pc]? = some i := ⟨_, List.getElem?_eq_getElem hin.lt⟩
    exact err_of_meets (luaVExecute_meets hacc hin hi hs htop) hx x rfl

end Runs

section Examples

/-- Functions around the interpreter that give nil and change nothing. -/
def Host.idle : Host Int Unit Unit where
  nvalue v := (luaVTonumber v).getD 0
  heap _ := Heap.bare
  env := .nil
  getupval _ _ := .nil
  setupval _ _ m := m
  runerror _ := ()
  traceexec m := .ok ((), m)
  gettable _ _ m := .ok (.nil, m)
  settable _ _ _ m := .ok ((), m)
  newtable _ _ m := .ok (.nil, m)
  argtable _ m := .ok (.nil, m)
  objlen _ m := .ok (.nil, m)
  concat _ m := .ok (.nil, m)
  equalobj _ _ m := .ok (false, m)
  lessthan _ _ m := .ok (false, m)
  lessequal _ _ m := .ok (false, m)
  call _ _ _ m := .ok ([], m)
  tailcall _ _ m := .ok (none, m)
  setlist _ _ _ m := .ok ((), m)
  close _ m := m
  closure _ _ m := .ok (.nil, m)

/-- A prototype of that code, with four registers and nothing else. -/
def Proto.ofCode (code : List Instruction) : Proto Int := ⟨[], code, [], 0, 0, 0, 0, 0, 4⟩

/-- A loop that is left at once. -/
def whileFalse : Proto Int := .ofCode
  [⟨OP_LOADBOOL, 0, 0, 0⟩, ⟨OP_TEST, 0, 0, 0⟩, .createABx OP_JMP 0 (maxargSBx + 1),
    .createABx OP_JMP 0 (maxargSBx - 4), ⟨OP_RETURN, 0, 1, 0⟩]

theorem luaGCheckcode_sound_whileFalse : luaGCheckcode whileFalse = true ∧
    RunsSafely Host.idle whileFalse [] ⟨fun _ => .nil, ()⟩ :=
  ⟨by decide, luaGCheckcode_sound _ _ _ _ (by decide)⟩

/-- A generic `for` without room for the call of its iterator. -/
def narrowTforloop : Proto Int := .ofCode
  [⟨OP_TFORLOOP, 0, 0, 1⟩, .createABx OP_JMP 0 maxargSBx, ⟨OP_RETURN, 0, 1, 0⟩]

theorem tforloop_leaves_registers : luaGCheckcode narrowTforloop = true ∧
    ∃ f, luaDPrecall Host.idle narrowTforloop [] ⟨fun _ => .nil, ()⟩ = .ok f ∧
      luaVExecute Host.idle narrowTforloop f = .error (.fault (.register 4)) :=
  ⟨by decide, _, rfl, rfl⟩

end Examples

end UgmeeLua

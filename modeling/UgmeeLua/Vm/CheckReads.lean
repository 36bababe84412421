import Mathlib.Tactic.Cases
import UgmeeLua.Vm.CheckSound

namespace UgmeeLua

open Loop OpCode OpArgMask OpMode

/-- What ends the checker before its time: a check that fails, or a read outside of an array of the
function. -/
inductive CheckError where
  | failed
  | code (i : Int)
  | k (i : Nat)
  | p (i : Nat)
  deriving DecidableEq, Repr

/-- The macro `check`. -/
def check (x : Bool) : Except CheckError Unit := if x then .ok () else .error .failed

variable {N : Type}

namespace Proto

def codeAt (pt : Proto N) (i : Int) : Except CheckError Instruction :=
  if 0 ≤ i then
    match pt.code[i.toNat]? with
    | some d => .ok d
    | none => .error (.code i)
  else .error (.code i)

def kAt (pt : Proto N) (i : Nat) : Except CheckError (TValue N) :=
  match pt.k[i]? with
  | some k => .ok k
  | none => .error (.k i)

def pAt (pt : Proto N) (i : Nat) : Except CheckError (Proto N) :=
  match pt.p[i]? with
  | some p => .ok p
  | none => .error (.p i)

end Proto

/-! The checker again, with every read of an array where the source has it; sums are those of `int`. -/

section Reads

variable (pt : Proto N)

def precheckReads : Except CheckError Unit := do
  check (pt.maxstacksize ≤ maxstack)
  check (pt.sizeupvalues ≤ pt.nups)
  check (pt.sizelineinfo = pt.sizecode || pt.sizelineinfo = 0)
  let i ← pt.codeAt (pt.sizecode - 1)
  check (i.op = OP_RETURN)

def checkopenopReads (pc : Nat) : Except CheckError Unit := do
  let i ← pt.codeAt (pc + 1)
  check (luaGCheckopenop i)

def operandReads (pc : Nat) (i : Instruction) : Except CheckError Unit :=
  match i.op.modes.m with
  | iAsBx =>
    if i.op.modes.b = OpArgR then do
      let dest := toCInt (pc + 1 + i.sbx)
      check (0 ≤ dest && dest < pt.sizecode)
      if 0 < dest then do
        let d ← pt.codeAt (dest - 1)
        check (!Proto.setlistCount d)
      else .ok ()
    else .ok ()
  | _ => check (checkOperands pt pc i)

def testReads (pc : Nat) (i : Instruction) : Except CheckError Unit :=
  if i.op.modes.t then do
    check (toCInt (pc + 2) < pt.sizecode)
    let i ← pt.codeAt (pc + 1)
    check (i.op = OP_JMP)
  else .ok ()

/-- The loop over the pseudo-instructions of a closure, which are behind `pc`. -/
def pseudoReads : Nat → Nat → Except CheckError Unit
  | _, 0 => .ok ()
  | pc, n + 1 => do
    let i ← pt.codeAt (pc + 1)
    check (i.op = OP_GETUPVAL || i.op = OP_MOVE)
    pseudoReads (pc + 1) n

def globalReads (i : Instruction) : Except CheckError Unit := do
  let k ← pt.kAt i.bx
  check (k.ttype = .LUA_TSTRING)

def callReads (pc : Nat) (i : Instruction) : Except CheckError Unit := do
  check (i.b = 0 || checkreg pt (i.a + i.b - 1))
  if i.c = 0 then checkopenopReads pt pc
  else check (i.c = 1 || checkreg pt (i.a + (i.c - 1 : Int) - 1))

def closureReads (pc : Nat) (i : Instruction) : Except CheckError Unit := do
  check (i.bx < pt.sizep)
  let q ← pt.pAt i.bx
  check (toCInt (pc + q.nups) < pt.sizecode)
  pseudoReads pt pc q.nups

def varargReads (pc : Nat) (i : Instruction) : Except CheckError Unit := do
  check (pt.isVarargFlag && !pt.needsArg)
  (if i.b = 0 then checkopenopReads pt pc else .ok ())
  check (checkreg pt (i.a + (i.b - 1 : Int) - 1))

def opcodeReads (pc : Nat) (i : Instruction) : Except CheckError Unit :=
  match i.op with
  | OP_GETGLOBAL | OP_SETGLOBAL => globalReads pt i
  | OP_CALL | OP_TAILCALL => callReads pt pc i
  | OP_CLOSURE => closureReads pt pc i
  | OP_VARARG => varargReads pt pc i
  -- the other opcodes read no array
  | _ => check (checkOpcode pt pc i)

def instructionReads (pc : Nat) (i : Instruction) : Except CheckError Unit := do
  check (i.op.toNat < numOpcodes)
  check (checkreg pt i.a)
  operandReads pt pc i
  testReads pt pc i
  opcodeReads pt pc i

def symbexecReadsPass (lastpc reg : Nat) (s : Symbexec) : Except CheckError (Pass Symbexec Nat) :=
  if s.pc < lastpc then do
    let i ← pt.codeAt s.pc
    instructionReads pt s.pc i
    .ok (.again ⟨symbexecNext pt lastpc reg s.pc i, symbexecLast reg s.pc s.last i⟩)
  else .ok (.done s.last)

def symbexecReads (lastpc reg : Nat) : Except CheckError Instruction := do
  precheckReads pt
  let last ← loop (fun s : Symbexec => lastpc - s.pc) .failed (symbexecReadsPass pt lastpc reg)
    ⟨0, pt.sizecode - 1⟩
  pt.codeAt last

/-- `luaG_checkcode`, whose checks fail with a 0. -/
def luaGCheckcodeReads : Except CheckError Bool :=
  match symbexecReads pt pt.sizecode noReg with
  | .ok i => .ok (i.toWord ≠ 0)
  | .error .failed => .ok false
  | .error e => .error e

end Reads

/-- What is so of every function that is loaded: the vector of its instructions can be allocated, their
operands have the bits of an instruction, and the numbers of upvalues are bytes. -/
structure Buildable (pt : Proto N) : Prop where
  sizecode : pt.sizecode < 2 ^ 31 - 1
  bx : ∀ i ∈ pt.code, i.bx < 2 ^ 18
  nups : ∀ q ∈ pt.p, q.nups < 256

section Check

variable {x y : Bool}

theorem check_and : check (x && y) = check x >>= fun _ => check y := by
  cases x <;> rfl

theorem check_bind {α : Type} {f : Unit → Except CheckError α} :
    (check x >>= f) = if x then f () else .error .failed := by
  cases x <;> rfl

theorem check_true : check true = .ok () := rfl

theorem check_false : check false = .error .failed := rfl

/-- A check that comes first is a hypothesis of what follows. -/
theorem check_bind_congr {f : Unit → Except CheckError Unit} (h : x = true → f () = check y) :
    (check x >>= f) = check (x && y) := by
  cases x with
  | false => rfl
  | true => exact h rfl

theorem toCInt_eq {n : Int} (hlo : -2 ^ 31 ≤ n) (hhi : n < 2 ^ 31) : toCInt n = n := by
  unfold toCInt
  rw [Int.bmod_def]
  split_ifs <;> omega

theorem toCInt_neg {n : Int} (hlo : 2 ^ 31 ≤ n) (hhi : n < 2 ^ 31 + 2 ^ 20) : toCInt n < 0 := by
  unfold toCInt
  rw [Int.bmod_def]
  split_ifs <;> omega

end Check

section CheckEq

variable {pt : Proto N} {pc n : Nat} {i d : Instruction}

theorem codeAt_eq (h : pt.code[n]? = some d) : pt.codeAt n = .ok d := by
  simp [Proto.codeAt, h]

theorem opIs_eq {op : OpCode} (h : pt.code[n]? = some d) : pt.opIs n op = decide (d.op = op) := by
  simp [Proto.opIs, h]

theorem precheckReads_eq (hne : pt.code ≠ []) : precheckReads pt = check (precheck pt) := by
  have hpos := List.length_pos_iff.mpr hne
  have hlast : pt.code[pt.sizecode - 1]? = some (pt.code.getLast hne) := by
    rw [Proto.sizecode, ← List.getLast?_eq_getElem?, List.getLast?_eq_some_getLast hne]
  have hread : pt.codeAt ((pt.sizecode : Int) - 1) = .ok (pt.code.getLast hne) := by
    have hcast : (pt.sizecode : Int) - 1 = ((pt.sizecode - 1 : Nat) : Int) := by
      have hsize : 0 < pt.sizecode := hpos
      omega
    rw [hcast]
    exact codeAt_eq hlast
  simp only [precheckReads, precheck, Bool.and_assoc]
  refine check_bind_congr fun _ => check_bind_congr fun _ => check_bind_congr fun _ => ?_
  rw [hread, ok_bind, List.getLast?_eq_some_getLast hne]
  rfl

/-- The last instruction is a return, as `precheck` has found. -/
def EndsInReturn (pt : Proto N) : Prop := pt.opIs (pt.sizecode - 1) OP_RETURN = true

theorem endsInReturn_of_precheck (h : precheck pt = true) : EndsInReturn pt := by
  simp only [precheck, Bool.and_eq_true] at h
  rw [EndsInReturn, Proto.opIs, Proto.sizecode, ← List.getLast?_eq_getElem?]
  exact h.2

/-- An instruction of another opcode has one behind it. -/
theorem EndsInReturn.next (h : EndsInReturn pt) (hi : pt.code[pc]? = some i)
    (hop : i.op ≠ OP_RETURN) : ∃ d, pt.code[pc + 1]? = some d := by
  have hlt : pc < pt.sizecode := (List.getElem?_eq_some_iff.mp hi).1
  have hne : pc + 1 ≠ pt.sizecode := by
    intro heq
    have hlast : pt.sizecode - 1 = pc := by omega
    rw [EndsInReturn, hlast, opIs_eq hi] at h
    exact hop (by simpa using h)
  have hnext : pc + 1 < pt.code.length := Nat.lt_of_le_of_ne hlt hne
  exact ⟨_, List.getElem?_eq_getElem hnext⟩

theorem checkopenopReads_eq (h : EndsInReturn pt) (hi : pt.code[pc]? = some i)
    (hop : i.op ≠ OP_RETURN) : checkopenopReads pt pc = check (checkopenop pt pc) := by
  obtain ⟨d, hd⟩ := h.next hi hop
  have hread : pt.codeAt ((pc : Int) + 1) = .ok d := codeAt_eq hd
  rw [checkopenopReads, hread, ok_bind, checkopenop, hd]
  rfl

theorem operandReads_eq (hb : Buildable pt) (hi : pt.code[pc]? = some i) :
    operandReads pt pc i = check (checkOperands pt pc i) := by
  obtain ⟨hlt, hget⟩ := List.getElem?_eq_some_iff.mp hi
  have hlt : pc < pt.sizecode := hlt
  have hsize := hb.sizecode
  have hbx := hb.bx i (hget ▸ List.getElem_mem _)
  rw [operandReads]
  cases hm : i.op.modes.m with
  | iABC => rfl
  | iABx => rfl
  | iAsBx =>
    simp only [checkOperands, hm]
    by_cases hr : i.op.modes.b = OpArgR
    · have hsbx : -2 ^ 18 ≤ i.sbx ∧ i.sbx < 2 ^ 18 := by
        simp only [Instruction.sbx, maxargSBx]
        omega
      simp only [hr, if_true, decide_true, Bool.not_true, Bool.false_or]
      by_cases hover : (2 ^ 31 : Int) ≤ pc + 1 + i.sbx
      · -- the sum is negative as an `int`, and too large without
        have hneg := toCInt_neg hover (by omega)
        have hfail : (decide (0 ≤ toCInt (pc + 1 + i.sbx)) &&
            decide (toCInt (pc + 1 + i.sbx) < pt.sizecode)) = false := by
          simp [Int.not_le.mpr hneg]
        have hlarge : ¬ ((pc : Int) + 1 + i.sbx < pt.sizecode) := by omega
        rw [hfail]
        simp [hlarge, check_false, bind, Except.bind]
      · rw [toCInt_eq (by omega) (by omega)]
        refine check_bind_congr fun hdest => ?_
        generalize (pc : Int) + 1 + i.sbx = dest at hdest
        by_cases hpos : 0 < dest
        · obtain ⟨m, rfl⟩ : ∃ m : Nat, dest = m + 1 := ⟨(dest - 1).toNat, by omega⟩
          simp only [Bool.and_eq_true, decide_eq_true_eq] at hdest
          have hin : m < pt.code.length := by
            have hm : m < pt.sizecode := by omega
            exact hm
          have hsub : (m : Int) + 1 - 1 = m := by omega
          have hd := List.getElem?_eq_getElem hin
          rw [if_pos hpos, hsub, codeAt_eq hd, ok_bind, Int.toNat_natCast, hd]
          simp [hpos]
        · simp [hpos, check_true]
    · simp [hr, check_true]

theorem testReads_eq (hb : Buildable pt) (hi : pt.code[pc]? = some i) :
    testReads pt pc i =
      check (!i.op.modes.t || (pc + 2 < pt.sizecode && pt.opIs (pc + 1) OP_JMP)) := by
  have hlt : pc < pt.sizecode := (List.getElem?_eq_some_iff.mp hi).1
  have hsize := hb.sizecode
  rw [testReads]
  cases i.op.modes.t with
  | false => rfl
  | true =>
    have hcast : decide (toCInt ((pc : Int) + 2) < pt.sizecode) = decide (pc + 2 < pt.sizecode) := by
      rw [toCInt_eq (by omega) (by omega), decide_eq_decide]
      omega
    rw [if_pos rfl, hcast, Bool.not_true, Bool.false_or]
    refine check_bind_congr fun htest => ?_
    have hnext : pc + 1 < pt.code.length := by
      have hsize : pc + 2 < pt.sizecode := by simpa using htest
      exact Nat.lt_of_succ_lt hsize
    have hd := List.getElem?_eq_getElem hnext
    have hread : pt.codeAt ((pc : Int) + 1) = .ok pt.code[pc + 1] := codeAt_eq hd
    rw [hread, ok_bind, opIs_eq hd]

/-- The pseudo-instructions end before the return at the latest. -/
theorem pseudoReads_eq (h : EndsInReturn pt) (hn : pc + 1 < pt.sizecode) :
    pseudoReads pt pc n = check ((List.range n).all fun j =>
      pt.opIs (pc + (j + 1)) OP_GETUPVAL || pt.opIs (pc + (j + 1)) OP_MOVE) := by
  induction n generalizing pc with
  | zero => rfl
  | succ n ih =>
    have hd : pt.code[pc + 1]? = some pt.code[pc + 1] := List.getElem?_eq_getElem hn
    have hread : pt.codeAt ((pc : Int) + 1) = .ok pt.code[pc + 1] := codeAt_eq hd
    have hshift : ∀ j, pc + (j.succ + 1) = pc + 1 + (j + 1) := fun j => by omega
    rw [pseudoReads, hread, ok_bind, List.range_succ_eq_map, List.all_cons, List.all_map]
    simp only [Nat.zero_add, opIs_eq hd, Function.comp_def, hshift]
    refine check_bind_congr fun hop => ih ?_
    obtain ⟨d, hd'⟩ := h.next hd fun hreturn => by simp [hreturn] at hop
    exact (List.getElem?_eq_some_iff.mp hd').1

theorem kAt_eq {n : Nat} (h : n < pt.sizek) : pt.kAt n = .ok pt.k[n] := by
  rw [Proto.kAt, List.getElem?_eq_getElem h]

theorem globalReads_eq (h : i.bx < pt.sizek) :
    globalReads pt i = check ((pt.k[i.bx]?).any (·.ttype = .LUA_TSTRING)) := by
  rw [globalReads, kAt_eq h, ok_bind, List.getElem?_eq_getElem h]
  rfl

theorem callReads_eq (hopen : checkopenopReads pt pc = check (checkopenop pt pc)) :
    callReads pt pc i = check ((i.b = 0 || checkreg pt (i.a + i.b - 1)) &&
      (if i.c = 0 then checkopenop pt pc
        else i.c = 1 || checkreg pt (i.a + (i.c - 1 : Int) - 1))) := by
  refine check_bind_congr fun _ => ?_
  by_cases hc : i.c = 0
  · rw [if_pos hc, if_pos hc, hopen]
  · rw [if_neg hc, if_neg hc]

theorem varargReads_eq (hopen : checkopenopReads pt pc = check (checkopenop pt pc)) :
    varargReads pt pc i = check (pt.isVarargFlag && !pt.needsArg &&
      (!(i.b = 0) || checkopenop pt pc) && checkreg pt (i.a + (i.b - 1 : Int) - 1)) := by
  have hflags : ∀ x y z : Bool, (x && y && z) = (x && (y && z)) := Bool.and_assoc
  rw [varargReads, hflags]
  refine check_bind_congr fun _ => ?_
  by_cases hb : i.b = 0
  · rw [if_pos hb, hopen, ← check_and, decide_eq_true hb]
    rfl
  · rw [if_neg hb, decide_eq_false hb]
    rfl

/-- A closure whose upvalues go past the largest `int` has the return among its pseudo-instructions. -/
theorem upvalues_fit (hb : Buildable pt) (h : EndsInReturn pt) (hn : pc + 1 < pt.sizecode)
    (hnups : n < 256) (hall : ((List.range n).all fun j =>
      pt.opIs (pc + (j + 1)) OP_GETUPVAL || pt.opIs (pc + (j + 1)) OP_MOVE) = true) :
    decide (toCInt ((pc : Int) + n) < pt.sizecode) = decide (pc + n < pt.sizecode) := by
  have hsize := hb.sizecode
  have hfits : pc + n < pt.sizecode := by
    by_contra hge
    have hlt : pt.sizecode - 2 - pc < n := by omega
    have hlast : pc + (pt.sizecode - 2 - pc + 1) = pt.sizecode - 1 := by omega
    have hop := List.all_eq_true.mp hall _ (List.mem_range.mpr hlt)
    rw [hlast] at hop
    obtain ⟨d, hd⟩ : ∃ d, pt.code[pt.sizecode - 1]? = some d :=
      ⟨_, List.getElem?_eq_getElem (Nat.sub_one_lt (Nat.ne_zero_of_lt hn))⟩
    rw [EndsInReturn, opIs_eq hd, decide_eq_true_eq] at h
    simp [opIs_eq hd, h] at hop
  rw [toCInt_eq (by omega) (by omega), decide_eq_decide]
  omega

theorem closureReads_eq (hb : Buildable pt) (h : EndsInReturn pt) (hi : pt.code[pc]? = some i)
    (hop : i.op = OP_CLOSURE) : closureReads pt pc i = check (checkOpcode pt pc i) := by
  obtain ⟨d, hd⟩ := h.next hi (by rw [hop]; decide)
  have hnext : pc + 1 < pt.sizecode := (List.getElem?_eq_some_iff.mp hd).1
  simp only [checkOpcode, hop]
  cases hq : pt.p[i.bx]? with
  | none =>
    have hbx : ¬ i.bx < pt.sizep := Nat.not_lt.mpr (List.getElem?_eq_none_iff.mp hq)
    rw [closureReads, decide_eq_false hbx, check_false]
    rfl
  | some q =>
    have hbx : i.bx < pt.sizep := (List.getElem?_eq_some_iff.mp hq).1
    have hread : pt.pAt i.bx = .ok q := by rw [Proto.pAt, hq]
    have hfit := upvalues_fit hb h hnext (hb.nups q (List.mem_of_getElem? hq))
    rw [closureReads, decide_eq_true hbx, check_true, ok_bind, hread, ok_bind,
      pseudoReads_eq h hnext, ← check_and]
    cases hall : (List.range q.nups).all fun j =>
        pt.opIs (pc + (j + 1)) OP_GETUPVAL || pt.opIs (pc + (j + 1)) OP_MOVE with
    | true =>
      simp only [hfit hall, hall]
    | false =>
      simp only [hall, Bool.and_false]

theorem opcodeReads_eq (hb : Buildable pt) (h : EndsInReturn pt) (hi : pt.code[pc]? = some i)
    (hk : i.op.modes.m = iABx → i.op.modes.b = OpArgK → i.bx < pt.sizek) :
    opcodeReads pt pc i = check (checkOpcode pt pc i) := by
  have hopen := checkopenopReads_eq h hi
  rw [opcodeReads]
  cases hop : i.op with
  | OP_GETGLOBAL =>
    simp only [checkOpcode, hop]
    exact globalReads_eq (hk (by rw [hop]; rfl) (by rw [hop]; rfl))
  | OP_SETGLOBAL =>
    simp only [checkOpcode, hop]
    exact globalReads_eq (hk (by rw [hop]; rfl) (by rw [hop]; rfl))
  | OP_CALL =>
    simp only [checkOpcode, hop]
    exact callReads_eq (hopen (by rw [hop]; decide))
  | OP_TAILCALL =>
    simp only [checkOpcode, hop]
    exact callReads_eq (hopen (by rw [hop]; decide))
  | OP_CLOSURE => exact closureReads_eq hb h hi hop
  | OP_VARARG =>
    simp only [checkOpcode, hop]
    exact varargReads_eq (hopen (by rw [hop]; decide))
  | _ => rfl

theorem bx_lt_sizek (hm : i.op.modes.m = iABx) (hk : i.op.modes.b = OpArgK)
    (h : checkOperands pt pc i = true) : i.bx < pt.sizek := by
  simpa [checkOperands, hm, hk] using h

theorem instructionReads_eq (hb : Buildable pt) (h : EndsInReturn pt)
    (hi : pt.code[pc]? = some i) :
    instructionReads pt pc i = check (checkInstruction pt pc i) := by
  have hflags : ∀ x y z : Bool, (x && y && z) = (x && (y && z)) := Bool.and_assoc
  rw [instructionReads, checkInstruction, operandReads_eq hb hi, testReads_eq hb hi]
  simp only [hflags]
  refine check_bind_congr fun _ => check_bind_congr fun _ => check_bind_congr fun hop => ?_
  refine check_bind_congr fun _ => opcodeReads_eq hb h hi fun hm hk => bx_lt_sizek hm hk hop

/-- A pass reads inside of the arrays only, and does what the pass without them does. -/
theorem symbexecReadsPass_eq (hb : Buildable pt) (h : EndsInReturn pt) (s : Symbexec) :
    symbexecReadsPass pt pt.sizecode noReg s =
      (symbexecPass pt pt.sizecode noReg s).mapError fun _ => .failed := by
  rw [symbexecReadsPass, symbexecPass]
  by_cases hlt : s.pc < pt.sizecode
  · have hi := List.getElem?_eq_getElem (l := pt.code) hlt
    rw [if_pos hlt, if_pos hlt, codeAt_eq hi, ok_bind, instructionReads_eq hb h hi, hi]
    simp only
    cases checkInstruction pt s.pc pt.code[s.pc] <;> rfl
  · rw [if_neg hlt, if_neg hlt]
    rfl

theorem symbexecLast_lt {reg last : Nat} (hlast : last < pt.sizecode) (hpc : pc < pt.sizecode) :
    symbexecLast reg pc last i < pt.sizecode := by
  have hfirst : (if i.op.modes.a && i.a = reg then pc else last) < pt.sizecode := by
    split_ifs <;> assumption
  unfold symbexecLast
  simp only
  generalize (if i.op.modes.a && i.a = reg then pc else last) = last' at hfirst
  split <;> first | exact hfirst | (split_ifs <;> assumption)

/-- The instruction that is returned at the end is one of the function. -/
theorem symbexecLoop_last (hne : pt.code ≠ []) :
    Meets (loop (fun s : Symbexec => pt.sizecode - s.pc) () (symbexecPass pt pt.sizecode noReg)
      ⟨0, pt.sizecode - 1⟩) (· < pt.sizecode) fun _ => True := by
  have hpos : 0 < pt.sizecode := List.length_pos_iff.mpr hne
  refine meets_loop (fun s => s.last < pt.sizecode) (fun s hs => ?_) (Nat.sub_one_lt_of_lt hpos)
  rw [symbexecPass]
  refine meets_ite (fun hlt => ?_) fun _ => meets_ok hs
  have hi := List.getElem?_eq_getElem (l := pt.code) hlt
  rw [hi]
  refine meets_ite (fun _ => meets_ok ⟨symbexecLast_lt hs hlt, ?_⟩) fun _ => meets_error trivial
  have hnext := lt_symbexecNext pt pt.sizecode noReg s.pc pt.code[s.pc]
  simp only
  omega

theorem symbexecReads_eq (hb : Buildable pt) (hne : pt.code ≠ []) :
    symbexecReads pt pt.sizecode noReg =
      (symbexec pt pt.sizecode noReg).mapError fun _ => .failed := by
  rw [symbexecReads, symbexec, precheckReads_eq hne]
  cases hpre : precheck pt with
  | false => rfl
  | true =>
    have hend := endsInReturn_of_precheck hpre
    have hloop : loop (fun s : Symbexec => pt.sizecode - s.pc) .failed
        (symbexecReadsPass pt pt.sizecode noReg) ⟨0, pt.sizecode - 1⟩ =
        (loop (fun s : Symbexec => pt.sizecode - s.pc) () (symbexecPass pt pt.sizecode noReg)
          ⟨0, pt.sizecode - 1⟩).mapError fun _ => CheckError.failed :=
      iterate_mapError (symbexecReadsPass_eq hb hend) _ _
    rw [check_true, ok_bind, hloop, if_pos rfl]
    cases hrun : loop (fun s : Symbexec => pt.sizecode - s.pc) ()
        (symbexecPass pt pt.sizecode noReg) ⟨0, pt.sizecode - 1⟩ with
    | error e => rfl
    | ok last =>
      have hlast := symbexecLoop_last hne
      rw [hrun] at hlast
      have hlast : last < pt.sizecode := hlast
      have hi := List.getElem?_eq_getElem (l := pt.code) hlast
      simp only [Except.mapError, ok_bind, codeAt_eq hi, hi]
      rfl

/-- With an instruction to look at, the checker reads inside of the arrays, and comes to what it comes to
without the reads. -/
theorem luaGCheckcodeReads_eq (hb : Buildable pt) (hne : pt.code ≠ []) :
    luaGCheckcodeReads pt = .ok (luaGCheckcode pt) := by
  rw [luaGCheckcodeReads, symbexecReads_eq hb hne, luaGCheckcode]
  cases symbexec pt pt.sizecode noReg <;> rfl

/-- A function without code whose other sizes pass: `precheck` looks at the instruction before the first
one. -/
def LooksBefore (pt : Proto N) : Prop :=
  pt.sizecode = 0 ∧ pt.maxstacksize ≤ maxstack ∧ pt.sizeupvalues ≤ pt.nups ∧ pt.sizelineinfo = 0

instance (pt : Proto N) : Decidable (LooksBefore pt) := inferInstanceAs (Decidable (_ ∧ _))

/-- Without code the checker fails before it looks at an instruction, or looks before the first one. -/
theorem luaGCheckcodeReads_empty (h : pt.sizecode = 0) :
    luaGCheckcodeReads pt = if LooksBefore pt then .error (.code (-1)) else .ok false := by
  have hread : pt.codeAt ((pt.sizecode : Int) - 1) = .error (.code (-1)) := by
    rw [h]
    rfl
  have hprecheck : precheckReads pt =
      if LooksBefore pt then .error (.code (-1)) else .error .failed := by
    simp only [precheckReads, check_bind, hread, decide_eq_true_eq, Bool.or_eq_true]
    by_cases hlooks : LooksBefore pt
    · obtain ⟨-, hstack, hups, hlines⟩ := hlooks
      have hlooks : LooksBefore pt := ⟨h, hstack, hups, hlines⟩
      rw [if_pos hlooks, if_pos hstack, if_pos hups, if_pos (.inr hlines)]
      rfl
    · rw [if_neg hlooks]
      split_ifs with hstack hups hlines
      · rw [h, or_self] at hlines
        exact absurd ⟨h, hstack, hups, hlines⟩ hlooks
      · rfl
      · rfl
      · rfl
  rw [luaGCheckcodeReads, symbexecReads, hprecheck]
  split_ifs <;> rfl

end CheckEq

end UgmeeLua

import Mathlib.Data.List.Nodup
import Mathlib.Tactic.SplitIfs
import UgmeeLua.Core.Instruction

namespace UgmeeLua.Jumps

open OpCode Instruction

def maxargC : Nat := 511
def LFIELDS_PER_FLUSH : Nat := 50

/-- How code generation stops: at a syntax error, or in a list of jumps that has no end. -/
inductive Stop where
  | syntaxError (msg : String)
  | noEnd
  deriving DecidableEq, Repr

/-- The code of a function as far as `pc`, and the list of jumps to `pc`, where no number is `NO_JUMP`.
`counts` says which words are counts of `luaK_setlist`; the generator does not know. -/
structure FuncState where
  code : List Instruction
  jpc : Option Nat
  lasttarget : Int
  counts : List Nat
  deriving DecidableEq, Repr

def FuncState.pc (fs : FuncState) : Nat := fs.code.length

section Lists

variable (code : List Instruction)

/-- `SETARG_sBx`. -/
def setSBx (i : Instruction) (offset : Int) : Instruction := createABx i.op i.a (offset + maxargSBx).toNat

def fixjump (pc dest : Nat) : Except Stop (List Instruction) :=
  let offset : Int := dest - (pc + 1)
  if offset.natAbs > maxargSBx then .error (.syntaxError "control structure too long")
  else .ok (code.modify pc (setSBx · offset))

def getjump (pc : Nat) : Option Nat :=
  match code[pc]? with
  | some i => if i.sbx = -1 then none else some (pc + 1 + i.sbx).toNat
  | none => none

/-- Where the instruction is that controls a jump. -/
def getjumpcontrol (pc : Nat) : Nat :=
  if pc ≥ 1 ∧ (code[pc - 1]?).any (·.op.modes.t) then pc - 1 else pc

/-- What becomes of a test that is patched. -/
def retest (reg : Nat) (i : Instruction) : Instruction :=
  if i.op ≠ OP_TESTSET then i
  else if reg ≠ noReg ∧ reg ≠ i.b then { i with a := reg }
  else ⟨OP_TEST, i.b, 0, i.c⟩

def patchtestreg (node reg : Nat) : Bool × List Instruction :=
  let i := getjumpcontrol code node
  if (code[i]?).any (·.op = OP_TESTSET) then (true, code.modify i (retest reg)) else (false, code)

end Lists

/-- The loop of `removevalues`. -/
def removevaluesLoop : Nat → Option Nat → List Instruction → Except Stop (List Instruction)
  | _, none, code => .ok code
  | 0, some _, _ => .error .noEnd
  | fuel + 1, some list, code =>
    let code := (patchtestreg code list noReg).2
    removevaluesLoop fuel (getjump code list) code

def removevalues (fs : FuncState) (list : Option Nat) : Except Stop FuncState := do
  let code ← removevaluesLoop fs.pc list fs.code
  .ok { fs with code := code }

/-- The loop of `patchlistaux`. -/
def patchlistLoop (vtarget reg dtarget : Nat) : Nat → Option Nat → List Instruction → Except Stop (List Instruction)
  | _, none, code => .ok code
  | 0, some _, _ => .error .noEnd
  | fuel + 1, some list, code => do
    let next := getjump code list
    let (patched, code) := patchtestreg code list reg
    let code ← fixjump code list (if patched then vtarget else dtarget)
    patchlistLoop vtarget reg dtarget fuel next code

def patchlistaux (fs : FuncState) (list : Option Nat) (vtarget reg dtarget : Nat) : Except Stop FuncState := do
  let code ← patchlistLoop vtarget reg dtarget fs.pc list fs.code
  .ok { fs with code := code }

def dischargejpc (fs : FuncState) : Except Stop FuncState := do
  let fs ← patchlistaux fs fs.jpc fs.pc noReg fs.pc
  .ok { fs with jpc := none }

/-- The last jump of a list. -/
def lastjump (code : List Instruction) : Nat → Nat → Except Stop Nat
  | 0, _ => .error .noEnd
  | fuel + 1, list =>
    match getjump code list with
    | some next => lastjump code fuel next
    | none => .ok list

/-- `luaK_concat`, with the list that there is then. -/
def luaKConcat (fs : FuncState) (l1 l2 : Option Nat) : Except Stop (Option Nat × FuncState) :=
  match l1, l2 with
  | l1, none => .ok (l1, fs)
  | none, l2 => .ok (l2, fs)
  | some l1, some l2 => do
    let list ← lastjump fs.code fs.pc l1
    let code ← fixjump fs.code list l2
    .ok (some l1, { fs with code := code })

def luaKGetlabel (fs : FuncState) : FuncState := { fs with lasttarget := fs.pc }

def luaKPatchtohere (fs : FuncState) (list : Option Nat) : Except Stop FuncState := do
  let fs := luaKGetlabel fs
  let (jpc, fs) ← luaKConcat fs fs.jpc list
  .ok { fs with jpc := jpc }

def luaKPatchlist (fs : FuncState) (list : Option Nat) (target : Nat) : Except Stop FuncState :=
  if target = fs.pc then luaKPatchtohere fs list else patchlistaux fs list target noReg target

/-- `luaK_code`. -/
def luaKCode (fs : FuncState) (i : Instruction) : Except Stop FuncState := do
  let fs ← dischargejpc fs
  .ok { fs with code := fs.code ++ [i] }

/-- A jump to nowhere yet. -/
def unpatched (op : OpCode) (a : Nat) : Instruction := setSBx ⟨op, a, 0, 0⟩ (-1)

/-- `luaK_jump`, with the list that the jump begins. -/
def luaKJump (fs : FuncState) : Except Stop (Option Nat × FuncState) := do
  let jpc := fs.jpc
  let j := fs.pc
  let fs ← luaKCode { fs with jpc := none } (unpatched OP_JMP 0)
  luaKConcat fs (some j) jpc

/-- `luaK_setlist`; `tostore` is none for `LUA_MULTRET`. -/
def luaKSetlist (fs : FuncState) (base nelems : Nat) (tostore : Option Nat) : Except Stop FuncState :=
  let c := (nelems - 1) / LFIELDS_PER_FLUSH + 1
  let b := tostore.getD 0
  if c ≤ maxargC then luaKCode fs ⟨OP_SETLIST, base, b, c⟩
  else do
    let fs ← luaKCode fs ⟨OP_SETLIST, base, b, 0⟩
    let fs ← luaKCode { fs with counts := fs.pc :: fs.counts } (.ofWord c)
    .ok fs

section Chains

/-- The instructions that stand in lists of jumps. -/
def isJump (op : OpCode) : Bool := op = OP_JMP ∨ op = OP_FORLOOP ∨ op = OP_FORPREP

def JumpAt (code : List Instruction) (p : Nat) : Prop := ∃ i, code[p]? = some i ∧ isJump i.op = true

/-- A list of jumps, one after the other. -/
def Chain (code : List Instruction) : List Nat → Prop
  | [] => True
  | p :: ps => JumpAt code p ∧ getjump code p = ps.head? ∧ Chain code ps

variable {code code' : List Instruction} {p q reg fuel vtarget dtarget dest : Nat} {ps : List Nat}
  {i : Instruction} {offset : Int}

theorem isJump_ne_testset (h : isJump i.op = true) : i.op ≠ OP_TESTSET := by
  intro heq
  rw [heq] at h
  exact absurd h (by decide)

theorem retest_of_ne (h : i.op ≠ OP_TESTSET) : retest reg i = i := if_pos h

theorem Chain.jumpAt (h : Chain code ps) : ∀ p ∈ ps, JumpAt code p := by
  induction ps with
  | nil => simp
  | cons p ps ih =>
    intro q hq
    rcases List.mem_cons.mp hq with rfl | hq
    · exact h.1
    · exact ih h.2.2 q hq

theorem getjump_congr (h : code'[p]? = code[p]?) : getjump code' p = getjump code p := by
  rw [getjump, getjump, h]

/-- A list is what it was when its jumps are. -/
theorem Chain.congr (h : Chain code ps) (hsame : ∀ p ∈ ps, code'[p]? = code[p]?) : Chain code' ps := by
  induction ps with
  | nil => trivial
  | cons p ps ih =>
    obtain ⟨⟨i, hi, hjump⟩, hnext, hrest⟩ := h
    have hp := hsame p List.mem_cons_self
    refine ⟨⟨i, by rw [hp, hi], hjump⟩, ?_, ih hrest fun q hq => hsame q (List.mem_cons_of_mem _ hq)⟩
    rw [getjump_congr hp, hnext]

theorem getElem?_fixjump (h : fixjump code p dest = .ok code') (q : Nat) :
    code'[q]? = if q = p then (code[q]?).map (setSBx · (dest - (p + 1))) else code[q]? := by
  unfold fixjump at h
  dsimp only at h
  split_ifs at h
  cases h
  rw [List.getElem?_modify]
  by_cases hq : q = p
  · subst hq
    simp
  · simp [hq, Ne.symm hq]

/-- The controlling test is patched, and nothing else. -/
theorem getElem?_patchtestreg (h : JumpAt code p) (q : Nat) :
    (patchtestreg code p reg).2[q]? = if q + 1 = p then (code[q]?).map (retest reg) else code[q]? := by
  obtain ⟨j, hj, hjump⟩ := h
  have hself : retest reg j = j := retest_of_ne (isJump_ne_testset hjump)
  unfold patchtestreg
  dsimp only
  by_cases hctl : p ≥ 1 ∧ (code[p - 1]?).any (·.op.modes.t)
  · have hpos := hctl.1
    have hcontrol : getjumpcontrol code p = p - 1 := if_pos hctl
    rw [hcontrol]
    by_cases hset : (code[p - 1]?).any (·.op = OP_TESTSET) = true
    · rw [if_pos hset, List.getElem?_modify]
      by_cases hq : q + 1 = p
      · have hqp : p - 1 = q := by omega
        simp [hq, hqp]
      · have hqp : ¬ p - 1 = q := by omega
        simp [hq, hqp]
    · rw [if_neg hset]
      by_cases hq : q + 1 = p
      · have hqp : p - 1 = q := by omega
        rw [hqp] at hset
        rw [if_pos hq]
        cases hi : code[q]? with
        | none => rfl
        | some i =>
          have hne : i.op ≠ OP_TESTSET := by simpa [hi] using hset
          simp [retest_of_ne hne]
      · rw [if_neg hq]
  · have hcontrol : getjumpcontrol code p = p := if_neg hctl
    rw [hcontrol]
    have hnot : ¬ (code[p]?).any (·.op = OP_TESTSET) = true := by
      simpa [hj] using isJump_ne_testset hjump
    rw [if_neg hnot]
    by_cases hq : q + 1 = p
    · have hqp : p - 1 = q := by omega
      rw [if_pos hq]
      cases hi : code[q]? with
      | none => rfl
      | some i =>
        have hne : i.op ≠ OP_TESTSET := by
          intro heq
          refine hctl ⟨by omega, ?_⟩
          rw [hqp, hi, Option.any_some, heq]
          rfl
        simp [retest_of_ne hne]
    · rw [if_neg hq]

theorem length_patchtestreg (code : List Instruction) (p reg : Nat) :
    (patchtestreg code p reg).2.length = code.length := by
  unfold patchtestreg
  dsimp only
  split_ifs
  · exact List.length_modify ..
  · rfl

/-- A jump is not changed by the patch of a test. -/
theorem patchtestreg_jump (hp : JumpAt code p) (hq : JumpAt code q) :
    (patchtestreg code p reg).2[q]? = code[q]? := by
  obtain ⟨i, hi, hjump⟩ := hq
  rw [getElem?_patchtestreg hp]
  split_ifs
  · rw [hi, Option.map_some, retest_of_ne (isJump_ne_testset hjump)]
  · rfl

end Chains

end UgmeeLua.Jumps

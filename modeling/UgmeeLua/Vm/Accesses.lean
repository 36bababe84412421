import UgmeeLua.Vm.CheckSound

namespace UgmeeLua

open Loop OpCode OpArgMask OpMode

variable {N W E : Type}

/-- An error of the program that runs, and no access that goes astray. -/
def NoFault (e : Halt N E) : Prop := ∀ x, e ≠ .fault x

/-- The same place and the same `top`. -/
def Kept (f f' : Frame N W) : Prop := f'.pc = f.pc ∧ f'.top = f.top

/-- The instructions that leave an open number of values; `OP_TAILCALL` does, whatever its `C`, when
it calls a C function. -/
def opens (i : Instruction) : Bool :=
  i.op = OP_CALL && i.c = 0 || i.op = OP_TAILCALL || i.op = OP_VARARG && i.b = 0

section Accesses

variable {p : Proto N} {f : Frame N W} {α : Type}

theorem Kept.refl (f : Frame N W) : Kept f f := ⟨rfl, rfl⟩

theorem Kept.trans {f g h : Frame N W} (h1 : Kept f g) (h2 : Kept g h) : Kept f h :=
  ⟨h2.1.trans h1.1, h2.2.trans h1.2⟩

theorem reg_meets {i : Nat} (h : i < p.maxstacksize) :
    Meets (f.reg p i : Except (Halt N E) _) (fun _ => True) NoFault := by
  rw [Frame.reg, if_pos h]
  trivial

theorem setReg_meets {i : Nat} (h : i < p.maxstacksize) (v : TValue N) :
    Meets (f.setReg p i v : Except (Halt N E) _) (Kept f) NoFault := by
  rw [Frame.setReg, if_pos h]
  exact ⟨rfl, rfl⟩

theorem regList_meets {i n : Nat} (h : i + n ≤ p.maxstacksize) :
    Meets (f.regList p i n : Except (Halt N E) _) (fun _ => True) NoFault := by
  induction n generalizing i with
  | zero => trivial
  | succ n ih =>
    apply meets_bind (reg_meets (by omega))
    intro v _
    apply meets_bind (ih (by omega))
    intro vs _
    trivial

theorem setRegs_meets {i : Nat} (vs : List (TValue N)) (h : i + vs.length ≤ p.maxstacksize) :
    Meets (f.setRegs p i vs : Except (Halt N E) _) (Kept f) NoFault := by
  induction vs generalizing i f with
  | nil => exact Kept.refl f
  | cons v vs ih =>
    simp only [List.length_cons] at h
    apply meets_bind (setReg_meets (by omega) v)
    intro g hg
    exact meets_mono (ih (by omega)) (fun _ => hg.trans) fun _ h => h

theorem protect_meets (g : Foreign N W E α) :
    Meets (f.protect g) (fun r => Kept f r.2) NoFault := by
  unfold Frame.protect
  cases g f.mach with
  | error e => exact meets_error nofun
  | ok r => exact meets_ok ⟨rfl, rfl⟩

theorem constant_meets {i : Nat} (h : i < p.sizek) :
    Meets (constant p i : Except (Halt N E) _) (fun _ => True) NoFault := by
  rw [constant, List.getElem?_eq_getElem h]
  trivial

theorem rk_meets {x : Nat} (h : checkArgMode p x OpArgK = true) :
    Meets (rk p f x : Except (Halt N E) _) (fun _ => True) NoFault := by
  unfold rk
  simp only [checkArgMode] at h
  split_ifs at h ⊢ with hk
  · exact constant_meets (by simpa using h)
  · exact reg_meets (by simpa using h)

theorem upvalue_meets {b : Nat} (h : b < p.nups) :
    Meets (upvalue p b : Except (Halt N E) _) (fun _ => True) NoFault := by
  rw [upvalue, if_pos h]
  trivial

theorem operands_meets {b i n : Nat} (hb : b ≠ 0 → i + n ≤ p.maxstacksize)
    (ht : b = 0 → f.top.isSome = true) :
    Meets (operands p f b i n : Except (Halt N E) _) (fun _ => True) NoFault := by
  unfold operands
  split_ifs with h
  · exact regList_meets (hb h)
  · obtain ⟨top, htop⟩ := Option.isSome_iff_exists.mp (ht (by omega))
    rw [Frame.openList, htop]
    trivial

theorem results_meets {a c : Nat} (vs : List (TValue N))
    (h : c ≠ 0 → a + (c - 1) ≤ p.maxstacksize) :
    Meets (results p f a c vs : Except (Halt N E) _)
      (fun f' => f'.pc = f.pc ∧ (c = 0 → f'.top.isSome = true)) NoFault := by
  unfold results
  split_ifs with hc
  · exact meets_ok ⟨rfl, fun _ => rfl⟩
  · apply meets_bind (setRegs_meets _ (by simpa using h hc))
    intro g hg
    exact meets_pure ⟨hg.1, fun h0 => absurd h0 hc⟩

theorem fetch_meets {pc : Nat} {i : Instruction} (h : p.code[pc]? = some i) :
    Meets (fetch p pc : Except (Halt N E) _) (· = i) NoFault := by
  rw [fetch, h]
  rfl

theorem jump_meets {d : Int} {dest : Nat} (h : f.pc + d = dest) :
    Meets (f.jump d : Except (Halt N E) _) (fun f' => f'.pc = dest ∧ f'.top = f.top) NoFault := by
  rw [Frame.jump, if_pos (by omega)]
  exact ⟨by simp only [h]; rfl, rfl⟩

end Accesses

section Modes

variable {p : Proto N} {pc : Nat} {i : Instruction}

theorem Checked.argB (h : Checked p pc i) (hm : i.op.modes.m = iABC) :
    checkArgMode p i.b i.op.modes.b = true := by
  have ho := h.operands
  rw [checkOperands, hm] at ho
  exact (Bool.and_eq_true_iff.mp ho).1

theorem Checked.argC (h : Checked p pc i) (hm : i.op.modes.m = iABC) :
    checkArgMode p i.c i.op.modes.c = true := by
  have ho := h.operands
  rw [checkOperands, hm] at ho
  exact (Bool.and_eq_true_iff.mp ho).2

theorem Checked.regB (h : Checked p pc i) (hm : i.op.modes.m = iABC)
    (hb : i.op.modes.b = OpArgR) : i.b < p.maxstacksize := by
  have ho := h.argB hm
  rw [hb] at ho
  simpa [checkArgMode, checkreg] using ho

theorem Checked.regC (h : Checked p pc i) (hm : i.op.modes.m = iABC)
    (hc : i.op.modes.c = OpArgR) : i.c < p.maxstacksize := by
  have ho := h.argC hm
  rw [hc] at ho
  simpa [checkArgMode, checkreg] using ho

theorem Checked.kBx (h : Checked p pc i) (hm : i.op.modes.m = iABx)
    (hb : i.op.modes.b = OpArgK) : i.bx < p.sizek := by
  have ho := h.operands
  rw [checkOperands, hm] at ho
  simpa [hb] using ho

/-- The destination of a checked jump is in the code, and no count of an `OP_SETLIST`. -/
theorem Checked.dest (h : Checked p pc i) (hm : i.op.modes.m = iAsBx)
    (hb : i.op.modes.b = OpArgR) : ∃ dest : Nat, (pc + 1 + i.sbx : Int) = dest ∧
      dest < p.sizecode ∧ ∀ m, dest = m + 1 → (p.code[m]?).any Proto.setlistCount = false := by
  have ho := h.operands
  rw [checkOperands, hm] at ho
  simp only [hb, decide_true, Bool.not_true, Bool.false_or, Bool.and_eq_true, decide_eq_true_eq,
    Bool.or_eq_true, Bool.not_eq_true'] at ho
  obtain ⟨⟨h0, hlt⟩, hcount⟩ := ho
  refine ⟨(pc + 1 + i.sbx : Int).toNat, by omega, by omega, fun m hm => ?_⟩
  have hd : (pc + 1 + i.sbx - 1 : Int).toNat = m := by omega
  rw [hd] at hcount
  rcases hcount with h | h
  · simp only [decide_eq_false_iff_not] at h
    omega
  · exact h

/-- What an instruction leaves that neither jumps nor ends the activation. -/
def StaysAt (f : Frame N W) : Pass (Frame N W) (Exit N) → Prop
  | .again f' => f'.pc = f.pc
  | .done _ => True

theorem set_meets {f g : Frame N W} (h : Checked p pc i) (hg : Kept f g)
    (v : TValue N) : Meets ((g.setReg p i.a v).map .again : Except (Halt N E) _) (StaysAt f)
      NoFault :=
  meets_map (setReg_meets h.a v) fun _ hk => (hg.trans hk).1

end Modes

variable [LuaNumber N]

section Straight

variable {H : Host N W E} {p : Proto N} {f : Frame N W} {pc : Nat}

/-- The opcodes that move values and take none of their operands from `top`. -/
def straight : List OpCode := [
  OP_MOVE, OP_LOADK, OP_LOADNIL, OP_GETUPVAL, OP_GETGLOBAL, OP_GETTABLE, OP_SETGLOBAL, OP_SETUPVAL,
  OP_SETTABLE, OP_NEWTABLE, OP_SELF, OP_ADD, OP_SUB, OP_MUL, OP_DIV, OP_MOD, OP_POW, OP_BOR,
  OP_BAND, OP_BXOR, OP_BLSHFT, OP_BRSHFT, OP_BNOT, OP_UNM, OP_NOT, OP_LEN, OP_CONCAT, OP_CLOSE]

theorem execOp_meets {i : Instruction} (h : Checked p pc i) (rb rc : TValue N) :
    Meets ((execOp H p f i rb rc).map .again) (StaysAt f) NoFault := by
  have hop : Meets (execOp H p f i rb rc) (fun f' => f'.pc = f.pc) NoFault := by
    apply meets_bind (reg_meets h.a)
    intro ra _
    cases execOperator (H.heap f.mach) i.op rb rc with
    | none => exact meets_ok rfl
    | some o =>
      simp only
      cases o.run (fun g vs => H.call g vs (some 1)) ra f.mach with
      | error e => exact meets_error nofun
      | ok r => exact meets_mono (setReg_meets h.a r.1) (fun _ hk => hk.1) fun _ h => h
  exact meets_map hop fun _ h => h

theorem execute_straight {i : Instruction} (h : Checked p pc i) (hs : i.op ∈ straight) :
    Meets (execute H p f i) (StaysAt f) NoFault := by
  have hk := Kept.refl f
  obtain ⟨op, a, b, c⟩ := i
  cases op
  case OP_MOVE =>
    apply meets_bind (reg_meets (h.regB rfl rfl))
    intro v _
    exact set_meets h hk v
  case OP_LOADK =>
    apply meets_bind (constant_meets (h.kBx rfl rfl))
    intro v _
    exact set_meets h hk v
  case OP_LOADNIL =>
    have hb := h.regB rfl rfl
    simp only at hb
    apply meets_bind (setReg_meets hb _)
    intro g hg
    have ha := h.a
    simp only at ha
    refine meets_map (setRegs_meets _ ?_) fun _ hk' => (hg.trans hk').1
    rw [List.length_replicate]
    show a + (b - a) ≤ p.maxstacksize
    omega
  case OP_GETUPVAL =>
    have hb : b < p.nups := by simpa [checkOpcode] using h.opcode
    apply meets_bind (upvalue_meets hb)
    intro b _
    exact set_meets h hk _
  case OP_GETGLOBAL =>
    apply meets_bind (constant_meets (h.kBx rfl rfl))
    intro rb _
    apply meets_bind (protect_meets _)
    rintro ⟨v, g⟩ hg
    exact set_meets h hg v
  case OP_GETTABLE =>
    apply meets_bind (reg_meets (h.regB rfl rfl))
    intro rb _
    apply meets_bind (rk_meets (h.argC rfl))
    intro rc _
    apply meets_bind (protect_meets _)
    rintro ⟨v, g⟩ hg
    exact set_meets h hg v
  case OP_SETGLOBAL =>
    apply meets_bind (reg_meets h.a)
    intro ra _
    apply meets_bind (constant_meets (h.kBx rfl rfl))
    intro rb _
    apply meets_bind (protect_meets _)
    rintro ⟨v, g⟩ hg
    exact meets_pure hg.1
  case OP_SETUPVAL =>
    have hb : b < p.nups := by simpa [checkOpcode] using h.opcode
    apply meets_bind (upvalue_meets hb)
    intro b _
    apply meets_bind (reg_meets h.a)
    intro ra _
    exact meets_pure rfl
  case OP_SETTABLE =>
    apply meets_bind (reg_meets h.a)
    intro ra _
    apply meets_bind (rk_meets (h.argB rfl))
    intro rb _
    apply meets_bind (rk_meets (h.argC rfl))
    intro rc _
    apply meets_bind (protect_meets _)
    rintro ⟨v, g⟩ hg
    exact meets_pure hg.1
  case OP_NEWTABLE =>
    apply meets_bind (protect_meets _)
    rintro ⟨v, g⟩ hg
    exact set_meets h hg v
  case OP_SELF =>
    have ha : a + 1 < p.maxstacksize := by
      have := h.opcode
      simp only [checkOpcode, checkreg, decide_eq_true_eq] at this
      omega
    apply meets_bind (reg_meets (h.regB rfl rfl))
    intro rb _
    apply meets_bind (setReg_meets ha rb)
    intro g hg
    apply meets_bind (rk_meets (h.argC rfl))
    intro rc _
    apply meets_bind (protect_meets _)
    rintro ⟨v, g'⟩ hg'
    exact set_meets h (hg.trans hg') v
  case OP_ADD | OP_SUB | OP_MUL | OP_DIV | OP_MOD | OP_POW | OP_BOR | OP_BAND | OP_BXOR | OP_BLSHFT
      | OP_BRSHFT =>
    apply meets_bind (rk_meets (h.argB rfl))
    intro rb _
    apply meets_bind (rk_meets (h.argC rfl))
    intro rc _
    exact execOp_meets h rb rc
  case OP_BNOT | OP_UNM | OP_NOT =>
    apply meets_bind (reg_meets (h.regB rfl rfl))
    intro rb _
    exact execOp_meets h rb rb
  case OP_LEN =>
    apply meets_bind (reg_meets (h.regB rfl rfl))
    intro rb _
    apply meets_bind (protect_meets _)
    rintro ⟨v, g⟩ hg
    exact set_meets h hg v
  case OP_CONCAT =>
    have hb := h.regB rfl rfl
    have hc := h.regC rfl rfl
    simp only at hb hc
    apply meets_bind (regList_meets (by simp only; omega))
    intro vs _
    apply meets_bind (protect_meets _)
    rintro ⟨v, g⟩ hg
    apply meets_bind (setReg_meets hb v)
    intro g' hg'
    exact set_meets h (hg.trans hg') v
  case OP_CLOSE => exact meets_pure rfl
  all_goals exact absurd hs (by simp [straight])

end Straight

end UgmeeLua

import UgmeeLua.Vm.Execute

namespace UgmeeLua

open Loop OpCode OpArgMask OpMode

variable {N W E : Type}

section Scan

/-- The positions that the checker comes to. -/
def Visited (p : Proto N) (pc : Nat) : Prop :=
  ∃ last, Passes (symbexecPass p p.sizecode noReg) ⟨0, p.sizecode - 1⟩ ⟨pc, last⟩

theorem symbexecNext_noReg (p : Proto N) (lastpc pc : Nat) (i : Instruction) :
    symbexecNext p lastpc noReg pc i = if Proto.setlistCount i then pc + 2 else pc + 1 := by
  unfold symbexecNext Proto.setlistCount
  split <;> simp_all

theorem lt_symbexecNext (p : Proto N) (lastpc reg pc : Nat) (i : Instruction) :
    pc < symbexecNext p lastpc reg pc i := by
  unfold symbexecNext
  split
  · simp only
    split_ifs with h
    · omega
    · omega
  · simp only
    split_ifs with h
    · omega
    · omega
  · simp only
    split_ifs with h
    · omega
    · omega
  · split_ifs <;> omega
  · split_ifs <;> omega
  · omega

theorem symbexecPass_shrinks (p : Proto N) (lastpc reg : Nat) :
    Shrinks (fun s : Symbexec => lastpc - s.pc) (fun _ => True) (symbexecPass p lastpc reg) := by
  intro s s' _ h
  unfold symbexecPass at h
  by_cases hlt : s.pc < lastpc
  · rw [if_pos hlt] at h
    split at h
    · next i _ =>
      split_ifs at h
      cases h
      have := lt_symbexecNext p lastpc reg s.pc i
      exact ⟨trivial, by simp only; omega⟩
    · cases h
  · rw [if_neg hlt] at h
    cases h

variable {p : Proto N}

/-- What the checker has found where it has come to. -/
structure Checked (p : Proto N) (pc : Nat) (i : Instruction) : Prop where
  a : i.a < p.maxstacksize
  operands : checkOperands p pc i = true
  test : i.op.modes.t = true → pc + 2 < p.sizecode ∧ p.opIs (pc + 1) OP_JMP = true
  opcode : checkOpcode p pc i = true

theorem checked_of_checkInstruction {pc : Nat} {i : Instruction}
    (h : checkInstruction p pc i = true) : Checked p pc i := by
  simp only [checkInstruction, Bool.and_eq_true, Bool.or_eq_true, Bool.not_eq_true'] at h
  obtain ⟨⟨⟨⟨-, ha⟩, ho⟩, ht⟩, hop⟩ := h
  refine ⟨by simpa [checkreg] using ha, ho, fun hm => ?_, hop⟩
  rcases ht with ht | ht
  · rw [hm] at ht
    cases ht
  · simpa using ht

theorem precheck_of_accepted (h : luaGCheckcode p = true) : precheck p = true := by
  unfold luaGCheckcode symbexec at h
  by_contra hp
  simp [hp, throw, throwThe, MonadExceptOf.throw] at h

theorem loop_of_accepted (h : luaGCheckcode p = true) :
    ∃ last, loop (fun s : Symbexec => p.sizecode - s.pc) () (symbexecPass p p.sizecode noReg)
      ⟨0, p.sizecode - 1⟩ = .ok last := by
  have hp := precheck_of_accepted h
  unfold luaGCheckcode symbexec at h
  cases hl : loop (fun s : Symbexec => p.sizecode - s.pc) () (symbexecPass p p.sizecode noReg)
      ⟨0, p.sizecode - 1⟩ with
  | ok last => exact ⟨last, rfl⟩
  | error e => simp [hp, hl, bind, Except.bind] at h

theorem pass_ne_error (h : luaGCheckcode p = true) {s : Symbexec}
    (hs : Passes (symbexecPass p p.sizecode noReg) ⟨0, p.sizecode - 1⟩ s) :
    symbexecPass p p.sizecode noReg s ≠ .error () := by
  intro he
  obtain ⟨r, hr⟩ := loop_of_accepted h
  cases hr.symm.trans ((loop_eq_error (symbexecPass_shrinks p _ _) trivial ()).mpr ⟨s, hs, he⟩)

theorem symbexecPass_at {pc : Nat} {i : Instruction} (hi : p.code[pc]? = some i) (last : Nat) :
    symbexecPass p p.sizecode noReg ⟨pc, last⟩ =
      if checkInstruction p pc i then
        .ok (.again ⟨symbexecNext p p.sizecode noReg pc i, symbexecLast noReg pc last i⟩)
      else .error () := by
  have hlt : pc < p.sizecode := (List.getElem?_eq_some_iff.mp hi).1
  simp only [symbexecPass, if_pos hlt, hi]

/-- Every position that the checker comes to has passed its checks. -/
theorem checked_of_visited (h : luaGCheckcode p = true) {pc : Nat} (hv : Visited p pc)
    {i : Instruction} (hi : p.code[pc]? = some i) : Checked p pc i := by
  obtain ⟨last, hpass⟩ := hv
  have hne := pass_ne_error h hpass
  rw [symbexecPass_at hi] at hne
  apply checked_of_checkInstruction
  by_contra hc
  exact hne (if_neg hc)

theorem visited_start (p : Proto N) : Visited p 0 := ⟨_, .refl _⟩

theorem visited_next (h : luaGCheckcode p = true) {pc : Nat} (hv : Visited p pc) {i : Instruction}
    (hi : p.code[pc]? = some i) :
    Visited p (if Proto.setlistCount i then pc + 2 else pc + 1) := by
  obtain ⟨last, hpass⟩ := hv
  have hne := pass_ne_error h hpass
  have hstep := symbexecPass_at hi last
  split_ifs at hstep with hc
  · rw [← symbexecNext_noReg p p.sizecode]
    exact ⟨_, hpass.snoc hstep⟩
  · exact absurd hstep hne

/-- A position that the checker does not come to holds the count of the `OP_SETLIST` before it. -/
theorem visited_or_count (h : luaGCheckcode p = true) (pc : Nat) (hlt : pc ≤ p.sizecode) :
    Visited p pc ∨ ∃ m i, pc = m + 1 ∧ Visited p m ∧ p.code[m]? = some i ∧
      Proto.setlistCount i = true := by
  induction pc with
  | zero => exact .inl (visited_start p)
  | succ n ih =>
    rcases ih (Nat.le_of_succ_le hlt) with hv | ⟨m, i, rfl, hv, hi, hc⟩
    · obtain ⟨i, hi⟩ : ∃ i, p.code[n]? = some i := ⟨_, List.getElem?_eq_getElem hlt⟩
      have hn := visited_next h hv hi
      split_ifs at hn with hc
      · exact .inr ⟨n, i, rfl, hv, hi, hc⟩
      · exact .inl hn
    · have hn := visited_next h hv hi
      rw [if_pos hc] at hn
      exact .inl hn

theorem visited_of_not_count (h : luaGCheckcode p = true) {pc : Nat} (hlt : pc < p.sizecode)
    (hc : ∀ m, pc = m + 1 → (p.code[m]?).any Proto.setlistCount = false) : Visited p pc := by
  rcases visited_or_count h pc (Nat.le_of_lt hlt) with hv | ⟨m, i, rfl, -, hi, hcount⟩
  · exact hv
  · have := hc m rfl
    rw [hi] at this
    simp [hcount] at this

/-- The last instruction is a return, so another one is not the last. -/
theorem succ_lt_sizecode (h : luaGCheckcode p = true) {pc : Nat} {i : Instruction}
    (hi : p.code[pc]? = some i) (hop : i.op ≠ OP_RETURN) : pc + 1 < p.sizecode := by
  have hp := precheck_of_accepted h
  obtain ⟨hlt, -⟩ := List.getElem?_eq_some_iff.mp hi
  simp only [precheck, Bool.and_eq_true] at hp
  have hlast := hp.2
  rw [List.getLast?_eq_getElem?] at hlast
  by_contra hge
  have : pc = p.code.length - 1 := by
    have : p.sizecode = p.code.length := rfl
    omega
  rw [← this, hi] at hlast
  exact hop (by simpa using hlast)

end Scan

end UgmeeLua

import UgmeeLua.Chunk.Prototype
import UgmeeLua.Vm.CheckSound

namespace UgmeeLua

open Loop OpCode

variable {N : Type}

/-- The checks of the code read the same of both prototypes. -/
structure SameCode (p q : Proto N) : Prop where
  k : p.k = q.k
  code : p.code = q.code
  nested : p.p.map Proto.nups = q.p.map Proto.nups
  nups : p.nups = q.nups
  isVararg : p.isVararg = q.isVararg
  maxstacksize : p.maxstacksize = q.maxstacksize

namespace SameCode

variable {p q : Proto N}

theorem sizecode (h : SameCode p q) : p.sizecode = q.sizecode := by
  rw [Proto.sizecode, Proto.sizecode, h.code]

theorem nestedAt (h : SameCode p q) (i : Nat) :
    (p.p[i]?).map Proto.nups = (q.p[i]?).map Proto.nups := by
  rw [← List.getElem?_map, ← List.getElem?_map, h.nested]

theorem checkOpcode (h : SameCode p q) (pc : Nat) (i : Instruction) :
    checkOpcode p pc i = checkOpcode q pc i := by
  have hnested := h.nestedAt i.bx
  have hsize := h.sizecode
  unfold UgmeeLua.checkOpcode checkreg checkopenop Proto.isVarargFlag Proto.needsArg Proto.opIs
  rw [h.k, h.code, h.nups, h.isVararg, h.maxstacksize, hsize]
  cases hp : p.p[i.bx]? with
  | none =>
    cases hq : q.p[i.bx]? with
    | none => rfl
    | some g => simp [hp, hq] at hnested
  | some f =>
    cases hq : q.p[i.bx]? with
    | none => simp [hp, hq] at hnested
    | some g =>
      have hn : f.nups = g.nups := by simpa [hp, hq] using hnested
      simp only [hn]

theorem checkInstruction (h : SameCode p q) (pc : Nat) (i : Instruction) :
    checkInstruction p pc i = checkInstruction q pc i := by
  have hop := h.checkOpcode pc i
  have hsize := h.sizecode
  unfold UgmeeLua.checkInstruction checkOperands checkArgMode checkreg Proto.sizek Proto.opIs
  rw [hop, h.k, h.code, h.maxstacksize, hsize]

theorem symbexecPass (h : SameCode p q) (lastpc : Nat) :
    symbexecPass p lastpc noReg = symbexecPass q lastpc noReg := by
  funext s
  unfold UgmeeLua.symbexecPass
  simp only [h.code, h.checkInstruction, symbexecNext_noReg]

theorem luaGCheckcode (h : SameCode p q) (hq : precheck q = true)
    (hp : luaGCheckcode p = true) : luaGCheckcode q = true := by
  have hpre := precheck_of_accepted hp
  unfold UgmeeLua.luaGCheckcode symbexec at hp ⊢
  rw [h.sizecode] at hp
  simp only [hpre, hq, if_true, h.symbexecPass, h.code] at hp ⊢
  exact hp

end SameCode

namespace Prototype

theorem toProtos_eq (fs : List (Prototype N)) : toProtos fs = fs.map toProto := by
  induction fs with
  | nil => rfl
  | cons f fs ih => rw [toProtos, ih, List.map_cons]

theorem strippedAll_eq (source : Bytes) (fs : List (Prototype N)) :
    strippedAll source fs = fs.map (stripped source) := by
  induction fs with
  | nil => rfl
  | cons f fs ih => rw [strippedAll, ih, List.map_cons]

theorem functionsAll_eq (fs : List (Prototype N)) :
    functionsAll fs = (fs.map functions).sum := by
  induction fs with
  | nil => rfl
  | cons f fs ih => rw [functionsAll, ih, List.map_cons, List.sum_cons]

theorem nups_toProto (f : Prototype N) : f.toProto.nups = f.nups.toNat := by
  obtain ⟨_, _, _, _, _, _, _, _, _, _, _, _, _⟩ := f
  rfl

theorem nups_stripped (source : Bytes) (f : Prototype N) : (f.stripped source).nups = f.nups := by
  obtain ⟨_, _, _, _, _, _, _, _, _, _, _, _, _⟩ := f
  rfl

theorem sameCode_stripped (source : Bytes) (f : Prototype N) :
    SameCode f.toProto (f.stripped source).toProto := by
  obtain ⟨_, _, _, _, _, _, _, _, _, p, _, _, _⟩ := f
  refine ⟨rfl, rfl, ?_, rfl, rfl, rfl⟩
  show (toProtos p).map Proto.nups = (toProtos (strippedAll source p)).map Proto.nups
  rw [toProtos_eq, toProtos_eq, strippedAll_eq, List.map_map, List.map_map, List.map_map]
  apply List.map_congr_left
  intro g _
  simp only [Function.comp, nups_toProto, nups_stripped]

/-- What is stripped off is not needed to pass the checker. -/
theorem accepted_stripped (source : Bytes) {f : Prototype N}
    (h : luaGCheckcode f.toProto = true) : luaGCheckcode (f.stripped source).toProto = true := by
  refine (sameCode_stripped source f).luaGCheckcode ?_ h
  have hpre := precheck_of_accepted h
  obtain ⟨_, _, _, _, _, _, _, _, _, _, _, _, _⟩ := f
  simp only [precheck, Bool.and_eq_true, decide_eq_true_eq] at hpre ⊢
  obtain ⟨⟨⟨hstack, _⟩, _⟩, hlast⟩ := hpre
  exact ⟨⟨⟨hstack, Nat.zero_le _⟩, by simp [stripped, toProto]⟩, hlast⟩

end Prototype

end UgmeeLua

import UgmeeLua.Code.JumpLists

namespace UgmeeLua.Jumps

open OpCode Instruction

/-- How an operation on lists ends: with a result, or at a syntax error. -/
inductive Ends {α : Type} (P : α → Prop) : Except Stop α → Prop
  | ok {a : α} (h : P a) : Ends P (.ok a)
  | syntaxError (msg : String) : Ends P (.error (.syntaxError msg))

theorem Ends.bind {α β : Type} {P : α → Prop} {Q : β → Prop} {x : Except Stop α} {f : α → Except Stop β}
    (h : Ends P x) (hf : ∀ a, P a → Ends Q (f a)) : Ends Q (x >>= f) := by
  cases h with
  | ok h => exact hf _ h
  | syntaxError msg => exact .syntaxError msg

theorem Ends.of_ok {α : Type} {P : α → Prop} {a : α} (h : Ends P (.ok a)) : P a := by
  cases h with
  | ok h => exact h

theorem Ends.mono {α : Type} {P Q : α → Prop} {x : Except Stop α} (h : Ends P x) (himp : ∀ a, P a → Q a) :
    Ends Q x := by
  cases h with
  | ok h => exact .ok (himp _ h)
  | syntaxError msg => exact .syntaxError msg

/-- What patching a list does to the code: its jumps get other offsets, the words before them are patched
as tests, and nothing else changes. -/
structure Patched (reg : Nat) (ps : List Nat) (code code' : List Instruction) : Prop where
  length : code'.length = code.length
  jumps : ∀ p ∈ ps, ∃ i i', code[p]? = some i ∧ code'[p]? = some i' ∧ i'.op = i.op ∧ i'.a = i.a
  others : ∀ q, q ∉ ps → code'[q]? = if q + 1 ∈ ps then (code[q]?).map (retest reg) else code[q]?

section Loops

variable {code code' : List Instruction} {p reg fuel vtarget dtarget dest : Nat} {ps qs : List Nat}

theorem fixjump_ends (code : List Instruction) (p dest : Nat) :
    Ends (fun code' => fixjump code p dest = .ok code') (fixjump code p dest) := by
  cases h : fixjump code p dest with
  | ok code' => exact .ok rfl
  | error e =>
    unfold fixjump at h
    dsimp only at h
    split_ifs at h
    cases h
    exact .syntaxError _

theorem length_fixjump (h : fixjump code p dest = .ok code') : code'.length = code.length := by
  unfold fixjump at h
  dsimp only at h
  split_ifs at h
  cases h
  exact List.length_modify ..

theorem Patched.nil_patched (reg : Nat) (code : List Instruction) : Patched reg [] code code :=
  ⟨rfl, by simp, by simp⟩

/-- One jump more, before a list that has been patched. -/
theorem Patched.cons {code₁ : List Instruction} (hp : JumpAt code p) (hnot : p ∉ ps) (hps : ∀ q ∈ ps, JumpAt code q)
    (hlen : code₁.length = code.length)
    (hjump : ∃ i i', code[p]? = some i ∧ code₁[p]? = some i' ∧ i'.op = i.op ∧ i'.a = i.a)
    (hothers : ∀ q, q ≠ p → code₁[q]? = (patchtestreg code p reg).2[q]?) (h : Patched reg ps code₁ code') :
    Patched reg (p :: ps) code code' := by
  refine ⟨h.length.trans hlen, fun q hq => ?_, fun q hq => ?_⟩
  · rcases List.mem_cons.mp hq with rfl | hq
    · obtain ⟨i, i', hi, hi', hop, ha⟩ := hjump
      obtain ⟨j, hj, hjop⟩ := hp
      obtain rfl := Option.some_inj.mp (hi.symm.trans hj)
      have hself : retest reg i' = i' := retest_of_ne (isJump_ne_testset (by rw [hop]; exact hjop))
      refine ⟨i, i', hi, ?_, hop, ha⟩
      rw [h.others q hnot, hi']
      split_ifs
      · rw [Option.map_some, hself]
      · rfl
    · have hne : q ≠ p := fun heq => hnot (heq ▸ hq)
      obtain ⟨i, i', hi, hi', hop, ha⟩ := h.jumps q hq
      rw [hothers q hne, patchtestreg_jump hp (hps q hq)] at hi
      exact ⟨i, i', hi, hi', hop, ha⟩
  · have hne : q ≠ p := fun heq => hq (heq ▸ List.mem_cons_self)
    have hnotps : q ∉ ps := fun hmem => hq (List.mem_cons_of_mem _ hmem)
    rw [h.others q hnotps, hothers q hne, getElem?_patchtestreg hp]
    by_cases hqp : q + 1 = p
    · have hout : q + 1 ∉ ps := hqp ▸ hnot
      simp [hqp, hnot]
    · simp [hqp]

theorem patchlistLoop_ends (hchain : Chain code ps) (hnodup : ps.Nodup) (hfuel : ps.length ≤ fuel) :
    Ends (Patched reg ps code) (patchlistLoop vtarget reg dtarget fuel ps.head? code) := by
  induction ps generalizing code fuel with
  | nil =>
    rw [List.head?_nil, patchlistLoop]
    exact .ok (.nil_patched reg code)
  | cons p ps ih =>
    obtain ⟨fuel, rfl⟩ : ∃ n, fuel = n + 1 := ⟨fuel - 1, by rw [List.length_cons] at hfuel; omega⟩
    obtain ⟨hp, hnext, hrest⟩ := hchain
    obtain ⟨hnot, hnodup⟩ := List.nodup_cons.mp hnodup
    rw [List.head?_cons, patchlistLoop]
    dsimp only
    rw [hnext]
    refine (fixjump_ends _ p _).bind fun code₁ hfix => ?_
    have hothers : ∀ q, q ≠ p → code₁[q]? = (patchtestreg code p reg).2[q]? := by
      intro q hq
      rw [getElem?_fixjump hfix, if_neg hq]
    have hsame : ∀ q ∈ ps, code₁[q]? = code[q]? := by
      intro q hq
      rw [hothers q fun heq => hnot (heq ▸ hq), patchtestreg_jump hp (hrest.jumpAt q hq)]
    have hlen : code₁.length = code.length := (length_fixjump hfix).trans (length_patchtestreg code p reg)
    have hjump : ∃ i i', code[p]? = some i ∧ code₁[p]? = some i' ∧ i'.op = i.op ∧ i'.a = i.a := by
      obtain ⟨i, hi, hop⟩ := hp
      have hset := getElem?_fixjump hfix p
      rw [if_pos rfl, patchtestreg_jump ⟨i, hi, hop⟩ ⟨i, hi, hop⟩, hi, Option.map_some] at hset
      exact ⟨i, _, hi, hset, rfl, rfl⟩
    refine (ih (hrest.congr hsame) hnodup (by simpa using hfuel)).mono fun code' h => ?_
    exact h.cons hp hnot (hrest.jumpAt) hlen hjump hothers

theorem removevaluesLoop_ends (hchain : Chain code ps) (hnodup : ps.Nodup) (hfuel : ps.length ≤ fuel) :
    Ends (fun code' => Patched noReg ps code code' ∧ ∀ p, JumpAt code p → code'[p]? = code[p]?)
      (removevaluesLoop fuel ps.head? code) := by
  induction ps generalizing code fuel with
  | nil =>
    rw [List.head?_nil, removevaluesLoop]
    exact .ok ⟨.nil_patched noReg code, fun _ _ => rfl⟩
  | cons p ps ih =>
    obtain ⟨fuel, rfl⟩ : ∃ n, fuel = n + 1 := ⟨fuel - 1, by rw [List.length_cons] at hfuel; omega⟩
    obtain ⟨hp, hnext, hrest⟩ := hchain
    obtain ⟨hnot, hnodup⟩ := List.nodup_cons.mp hnodup
    have hjumps : ∀ q, JumpAt code q → (patchtestreg code p noReg).2[q]? = code[q]? :=
      fun q hq => patchtestreg_jump hp hq
    rw [List.head?_cons, removevaluesLoop, getjump_congr (hjumps p hp), hnext]
    have hchain' := hrest.congr fun q hq => hjumps q (hrest.jumpAt q hq)
    refine (ih hchain' hnodup (by simpa using hfuel)).mono fun code' h => ⟨?_, fun q hq => ?_⟩
    · refine h.1.cons hp hnot hrest.jumpAt (length_patchtestreg code p noReg) ?_ fun _ _ => rfl
      obtain ⟨i, hi, hop⟩ := hp
      exact ⟨i, i, hi, by rw [hjumps p ⟨i, hi, hop⟩, hi], rfl, rfl⟩
    · obtain ⟨i, hi, hop⟩ := hq
      have hsame := hjumps q ⟨i, hi, hop⟩
      rw [h.2 q ⟨i, by rw [hsame, hi], hop⟩, hsame]

/-- An offset comes back out of a jump. -/
theorem sbx_setSBx (i : Instruction) {offset : Int} (h : offset.natAbs ≤ maxargSBx) : (setSBx i offset).sbx = offset := by
  unfold setSBx Instruction.sbx
  rw [bx_createABx]
  omega

theorem lastjump_ends (hchain : Chain code (p :: ps)) (hfuel : ps.length < fuel) :
    lastjump code fuel p = .ok ((p :: ps).getLast (by simp)) := by
  induction ps generalizing p fuel with
  | nil =>
    obtain ⟨fuel, rfl⟩ : ∃ n, fuel = n + 1 := ⟨fuel - 1, by omega⟩
    rw [lastjump, hchain.2.1]
    rfl
  | cons q ps ih =>
    obtain ⟨fuel, rfl⟩ : ∃ n, fuel = n + 1 := ⟨fuel - 1, by omega⟩
    rw [lastjump, hchain.2.1]
    exact ih hchain.2.2 (by simpa using hfuel)

/-- The last jump of a list comes to lead to another one. -/
theorem Chain.append {l q : Nat} (h : Chain code ps) (hps : ps.getLast? = some l) (hnodup : ps.Nodup)
    (hqs : Chain code (q :: qs)) (hl : l ∉ q :: qs) (hfix : fixjump code l q = .ok code') :
    Chain code' (ps ++ q :: qs) := by
  have hsame : ∀ p, p ≠ l → code'[p]? = code[p]? := fun p hp => by rw [getElem?_fixjump hfix, if_neg hp]
  have hqs' : Chain code' (q :: qs) := hqs.congr fun p hp => hsame p fun heq => hl (heq ▸ hp)
  induction ps with
  | nil => simp at hps
  | cons p ps ih =>
    obtain ⟨⟨i, hi, hop⟩, hnext, hrest⟩ := h
    obtain ⟨hnot, hnodup⟩ := List.nodup_cons.mp hnodup
    cases ps with
    | nil =>
      have hpl : p = l := by simpa using hps
      subst hpl
      have hp' : code'[p]? = some (setSBx i (q - (p + 1))) := by
        rw [getElem?_fixjump hfix, if_pos rfl, hi]
        rfl
      have hbound : ((q : Int) - (p + 1)).natAbs ≤ maxargSBx := by
        unfold fixjump at hfix
        dsimp only at hfix
        split_ifs at hfix with hlong
        omega
      have hne : q ≠ p := fun heq => hl (heq ▸ List.mem_cons_self)
      refine ⟨⟨_, hp', hop⟩, ?_, hqs'⟩
      rw [getjump, hp']
      dsimp only
      rw [sbx_setSBx i hbound, if_neg (by omega)]
      refine congrArg some ?_
      omega
    | cons p' ps =>
      have hpl : p ≠ l := by
        rintro rfl
        exact hnot (List.mem_of_mem_getLast? (by simpa using hps))
      refine ⟨⟨i, by rw [hsame p hpl, hi], hop⟩, ?_, ih hrest (by simpa using hps) hnodup⟩
      rw [getjump_congr (hsame p hpl), hnext]
      rfl

end Loops

end UgmeeLua.Jumps

import Mathlib.Data.List.Flatten
import Mathlib.Data.List.Perm.Subperm
import UgmeeLua.Code.Patching

namespace UgmeeLua.Jumps

open OpCode Instruction

/-- What the generator of a function comes to: the jumps of `jpc`, and those of the lists that the parser
holds. -/
inductive Generates : FuncState → List Nat → List (List Nat) → Prop
  | new : Generates ⟨[], none, -1, []⟩ [] []
  | code {fs fs' : FuncState} {jps : List Nat} {lists : List (List Nat)} {i : Instruction}
      (h : Generates fs jps lists) (hi : isJump i.op = false) (hrun : luaKCode fs i = .ok fs') :
      Generates fs' [] lists
  | setlist {fs fs' : FuncState} {jps : List Nat} {lists : List (List Nat)} {base nelems : Nat}
      {tostore : Option Nat} (h : Generates fs jps lists)
      (hrun : luaKSetlist fs base nelems tostore = .ok fs') : Generates fs' [] lists
  | jump {fs fs' : FuncState} {jps : List Nat} {lists : List (List Nat)} {l : Option Nat}
      (h : Generates fs jps lists) (hrun : luaKJump fs = .ok (l, fs')) :
      Generates fs' [] ((fs.pc :: jps) :: lists)
  | loop {fs fs' : FuncState} {jps : List Nat} {lists : List (List Nat)} {op : OpCode} {a : Nat}
      (h : Generates fs jps lists) (hop : op = OP_FORPREP ∨ op = OP_FORLOOP)
      (hrun : luaKCode fs (unpatched op a) = .ok fs') : Generates fs' [] ([fs.pc] :: lists)
  | edit {fs : FuncState} {jps : List Nat} {lists : List (List Nat)} {p : Nat} {i i' : Instruction}
      (h : Generates fs jps lists) (hi : fs.code[p]? = some i)
      (hold : isJump i.op = false) (hnew : isJump i'.op = false) :
      Generates { fs with code := fs.code.set p i' } jps lists
  | dropNot {fs : FuncState} {jps : List Nat} {lists : List (List Nat)} {i : Instruction}
      {code : List Instruction} (h : Generates fs jps lists) (hi : fs.code = code ++ [i]) (hop : i.op = OP_NOT)
      (hp : code.length ∉ fs.counts) : Generates { fs with code := code } jps lists
  | empty {fs : FuncState} {jps : List Nat} {lists : List (List Nat)} (h : Generates fs jps lists) :
      Generates fs jps ([] :: lists)
  | perm {fs : FuncState} {jps : List Nat} {lists lists' : List (List Nat)} (h : Generates fs jps lists)
      (hperm : lists.Perm lists') : Generates fs jps lists'
  | concat {fs fs' : FuncState} {jps ps qs : List Nat} {lists : List (List Nat)} {l : Option Nat}
      (h : Generates fs jps (ps :: qs :: lists)) (hrun : luaKConcat fs ps.head? qs.head? = .ok (l, fs')) :
      Generates fs' jps ((ps ++ qs) :: lists)
  | getlabel {fs : FuncState} {jps : List Nat} {lists : List (List Nat)} (h : Generates fs jps lists) :
      Generates (luaKGetlabel fs) jps lists
  | patchtohere {fs fs' : FuncState} {jps ps : List Nat} {lists : List (List Nat)}
      (h : Generates fs jps (ps :: lists)) (hrun : luaKPatchtohere fs ps.head? = .ok fs') :
      Generates fs' (jps ++ ps) lists
  | patchlist {fs fs' : FuncState} {jps ps : List Nat} {lists : List (List Nat)} {target : Nat}
      (h : Generates fs jps (ps :: lists)) (hrun : luaKPatchlist fs ps.head? target = .ok fs') :
      Generates fs' (if target = fs.pc then jps ++ ps else jps) lists
  | patchlistaux {fs fs' : FuncState} {jps ps : List Nat} {lists : List (List Nat)}
      {vtarget reg dtarget : Nat} (h : Generates fs jps (ps :: lists))
      (hrun : patchlistaux fs ps.head? vtarget reg dtarget = .ok fs') : Generates fs' jps lists
  | removevalues {fs fs' : FuncState} {jps ps : List Nat} {lists : List (List Nat)}
      (h : Generates fs jps (ps :: lists)) (hrun : removevalues fs ps.head? = .ok fs') :
      Generates fs' jps (ps :: lists)

/-- Every list is one of jumps, no jump is in two of them, and no count is one. -/
structure Lists (code : List Instruction) (counts : List Nat) (lists : List (List Nat)) : Prop where
  chains : ∀ ps ∈ lists, Chain code ps
  nodup : lists.flatten.Nodup
  counts : ∀ p ∈ counts, p < code.length ∧ p ∉ lists.flatten

/-- What is held while a function is compiled. -/
structure Held (fs : FuncState) (jps : List Nat) (lists : List (List Nat)) : Prop where
  jpc : fs.jpc = jps.head?
  lists : Lists fs.code fs.counts (jps :: lists)

section Steps

variable {fs fs' : FuncState} {jps ps qs counts : List Nat} {lists lists' : List (List Nat)} {reg : Nat}
  {code code' : List Instruction} {i : Instruction} {p : Nat}

theorem JumpAt.lt (h : JumpAt code p) : p < code.length := by
  obtain ⟨i, hi, -⟩ := h
  exact (List.getElem?_eq_some_iff.mp hi).1

theorem Chain.length_le (h : Chain code ps) (hnodup : ps.Nodup) : ps.length ≤ code.length := by
  have hsub : ps ⊆ List.range code.length := fun p hp => List.mem_range.mpr (h.jumpAt p hp).lt
  have hlen := (List.Nodup.subperm hnodup hsub).length_le
  rwa [List.length_range] at hlen

theorem Lists.chain (h : Lists code counts lists) (hps : ps ∈ lists) :
    Chain code ps ∧ ps.Nodup ∧ ps.length ≤ code.length := by
  have hnodup := (List.nodup_flatten.mp h.nodup).1 ps hps
  exact ⟨h.chains ps hps, hnodup, (h.chains ps hps).length_le hnodup⟩

theorem Lists.jumpAt (h : Lists code counts lists) : ∀ p ∈ lists.flatten, JumpAt code p := by
  intro p hp
  obtain ⟨ps, hps, hp⟩ := List.mem_flatten.mp hp
  exact (h.chains ps hps).jumpAt p hp

/-- The lists are still there where all their jumps are as they were. -/
theorem Lists.of_jumps (h : Lists code counts lists) (hlen : ∀ p ∈ counts, p < code'.length)
    (hmem : ∀ ps ∈ lists', ps = [] ∨ ps ∈ lists) (hflat : lists'.flatten.Sublist lists.flatten)
    (hsame : ∀ p ∈ lists'.flatten, JumpAt code p → code'[p]? = code[p]?) : Lists code' counts lists' := by
  refine ⟨fun ps hps => ?_, h.nodup.sublist hflat, fun p hp => ?_⟩
  · rcases hmem ps hps with rfl | hold
    · trivial
    · have hchain := h.chains ps hold
      exact hchain.congr fun p hp => hsame p (List.mem_flatten.mpr ⟨ps, hps, hp⟩) (hchain.jumpAt p hp)
  · exact ⟨hlen p hp, fun hin => (h.counts p hp).2 (hflat.subset hin)⟩

theorem Lists.perm (h : Lists code counts lists) (hperm : lists.Perm lists') : Lists code counts lists' := by
  have hflat := hperm.flatten
  refine ⟨fun ps hps => h.chains ps (hperm.mem_iff.mpr hps), hflat.nodup_iff.mp h.nodup, fun p hp => ?_⟩
  obtain ⟨hlt, hnot⟩ := h.counts p hp
  exact ⟨hlt, fun hmem => hnot (hflat.mem_iff.mpr hmem)⟩

theorem Lists.cons_nil (h : Lists code counts lists) : Lists code counts ([] :: lists) := by
  refine h.of_jumps (fun p hp => (h.counts p hp).1) (fun ps hps => ?_) (List.Sublist.refl _) fun _ _ _ => rfl
  exact (List.mem_cons.mp hps).imp id id

theorem Lists.tail (h : Lists code counts (ps :: lists)) : Lists code counts lists := by
  refine h.of_jumps (fun p hp => (h.counts p hp).1) (fun qs hqs => .inr (List.mem_cons_of_mem _ hqs)) ?_
    fun _ _ _ => rfl
  rw [List.flatten_cons]
  exact List.sublist_append_right ..

/-- One more instruction. -/
theorem Lists.append (h : Lists code counts lists) (i : Instruction) : Lists (code ++ [i]) counts lists := by
  refine h.of_jumps (fun p hp => ?_) (fun ps hps => .inr hps) (List.Sublist.refl _) fun p _ hp => ?_
  · have := (h.counts p hp).1
    rw [List.length_append]
    omega
  · rw [List.getElem?_append_left hp.lt]

theorem isJump_unpatched {op : OpCode} (hop : isJump op = true) (a : Nat) : Chain (code ++ [unpatched op a]) [code.length] := by
  have hlast : (code ++ [unpatched op a])[code.length]? = some (unpatched op a) := by simp
  refine ⟨⟨_, hlast, hop⟩, ?_, trivial⟩
  rw [getjump, hlast]
  dsimp only
  rw [unpatched, sbx_setSBx _ (by decide), if_pos rfl]
  rfl

/-- One more jump, which is a list of its own. -/
theorem Lists.extend (h : Lists code counts lists) {op : OpCode} (hop : isJump op = true) (a : Nat) :
    Lists (code ++ [unpatched op a]) counts ([code.length] :: lists) := by
  have hold := h.append (unpatched op a)
  have hnew : code.length ∉ lists.flatten := fun hmem => Nat.lt_irrefl _ (h.jumpAt _ hmem).lt
  refine ⟨fun ps hps => ?_, ?_, fun p hp => ⟨(hold.counts p hp).1, fun hmem => ?_⟩⟩
  · rcases List.mem_cons.mp hps with rfl | hps
    · exact isJump_unpatched hop a
    · exact hold.chains ps hps
  · rw [List.flatten_cons, List.singleton_append]
    exact List.nodup_cons.mpr ⟨hnew, h.nodup⟩
  · rw [List.flatten_cons, List.singleton_append] at hmem
    rcases List.mem_cons.mp hmem with rfl | hmem
    · exact Nat.lt_irrefl _ (h.counts _ hp).1
    · exact (hold.counts p hp).2 hmem

/-- Patching a list leaves the others alone. -/
theorem Patched.others_same {code' : List Instruction} (h : Patched reg ps code code') (hp : JumpAt code p)
    (hnot : p ∉ ps) : code'[p]? = code[p]? := by
  obtain ⟨i, hi, hop⟩ := hp
  rw [h.others p hnot, hi]
  split_ifs
  · rw [Option.map_some, retest_of_ne (isJump_ne_testset hop)]
  · rfl

theorem Lists.patched (h : Lists code counts (ps :: lists)) (hcode : Patched reg ps code code') :
    Lists code' counts lists := by
  have hdisjoint := (List.nodup_append.mp (List.flatten_cons ▸ h.nodup)).2.2
  refine h.tail.of_jumps (fun p hp => ?_) (fun qs hqs => .inr hqs) (List.Sublist.refl _) fun p hp hjump => ?_
  · rw [hcode.length]
    exact (h.counts p hp).1
  · exact hcode.others_same hjump fun hmem => hdisjoint p hmem p hp rfl

theorem patchlistaux_ends (h : Lists fs.code fs.counts lists) (hps : ps ∈ lists) (vtarget reg dtarget : Nat) :
    Ends (fun fs' => Patched reg ps fs.code fs'.code ∧ fs' = { fs with code := fs'.code })
      (patchlistaux fs ps.head? vtarget reg dtarget) := by
  obtain ⟨hchain, hnodup, hlen⟩ := h.chain hps
  exact (patchlistLoop_ends hchain hnodup hlen).bind fun code' hcode => .ok ⟨hcode, rfl⟩

theorem removevalues_ends (h : Lists fs.code fs.counts lists) (hps : ps ∈ lists) :
    Ends (fun fs' => Patched noReg ps fs.code fs'.code ∧ (∀ p, JumpAt fs.code p → fs'.code[p]? = fs.code[p]?) ∧
      fs' = { fs with code := fs'.code }) (removevalues fs ps.head?) := by
  obtain ⟨hchain, hnodup, hlen⟩ := h.chain hps
  exact (removevaluesLoop_ends hchain hnodup hlen).bind fun code' hcode => .ok ⟨hcode.1, hcode.2, rfl⟩

theorem dischargejpc_ends (h : Held fs jps lists) :
    Ends (fun fs' => Patched noReg jps fs.code fs'.code ∧ fs' = { fs with code := fs'.code, jpc := none })
      (dischargejpc fs) := by
  unfold dischargejpc
  rw [h.jpc]
  refine (patchlistaux_ends h.lists List.mem_cons_self fs.pc noReg fs.pc).bind fun fs' hfs' => ?_
  obtain ⟨hcode, heq⟩ := hfs'
  rw [heq]
  exact .ok ⟨hcode, rfl⟩

/-- The code before the instruction is that of which the jumps to it have been patched. -/
theorem luaKCode_ends (h : Held fs jps lists) (i : Instruction) :
    Ends (fun fs' => ∃ code, Patched noReg jps fs.code code ∧ Lists code fs.counts lists ∧
      fs' = { fs with code := code ++ [i], jpc := none }) (luaKCode fs i) := by
  refine (dischargejpc_ends h).bind fun fs' hfs' => ?_
  obtain ⟨hcode, heq⟩ := hfs'
  rw [heq]
  exact .ok ⟨fs'.code, hcode, h.lists.patched hcode, rfl⟩

/-- What joining two lists does to the code. -/
structure Joined (code code' : List Instruction) (ps qs : List Nat) : Prop where
  length : code'.length = code.length
  chain : Chain code' (ps ++ qs)
  jumps : ∀ p ∈ ps, ∃ i i', code[p]? = some i ∧ code'[p]? = some i' ∧ i'.op = i.op ∧ i'.a = i.a
  others : ∀ p, p ∉ ps → code'[p]? = code[p]?

theorem Joined.refl (h : Chain code (ps ++ qs)) : Joined code code ps qs := by
  refine ⟨rfl, h, fun p hp => ?_, fun _ _ => rfl⟩
  obtain ⟨i, hi, -⟩ := h.jumpAt p (List.mem_append_left _ hp)
  exact ⟨i, i, hi, hi, rfl, rfl⟩

theorem luaKConcat_ends (hps : Chain fs.code ps) (hqs : Chain fs.code qs) (hnodup : (ps ++ qs).Nodup) :
    Ends (fun r => r.1 = (ps ++ qs).head? ∧ Joined fs.code r.2.code ps qs ∧ r.2 = { fs with code := r.2.code })
      (luaKConcat fs ps.head? qs.head?) := by
  obtain ⟨hps', hqs', hdisjoint⟩ := List.nodup_append.mp hnodup
  cases qs with
  | nil =>
    rw [List.head?_nil, List.append_nil, luaKConcat]
    exact .ok ⟨rfl, .refl (by rwa [List.append_nil]), rfl⟩
  | cons q qs =>
    cases ps with
    | nil => exact .ok ⟨rfl, .refl hqs, rfl⟩
    | cons p ps =>
      have hlen := hps.length_le hps'
      have hlast := lastjump_ends hps (Nat.lt_of_succ_le hlen)
      generalize hl : (p :: ps).getLast (by simp) = l at hlast
      have hl? : (p :: ps).getLast? = some l := by rw [← hl, List.getLast?_eq_some_getLast]
      have hmem : l ∈ p :: ps := List.mem_of_getLast? hl?
      rw [List.head?_cons, List.head?_cons, luaKConcat]
      have hpc : lastjump fs.code fs.pc p = .ok l := hlast
      rw [hpc]
      refine (fixjump_ends fs.code l q).bind fun code' hfix => .ok ⟨rfl, ⟨length_fixjump hfix, ?_, ?_, ?_⟩, rfl⟩
      · exact hps.append hl? hps' hqs (fun hmem' => hdisjoint l hmem l hmem' rfl) hfix
      · intro x hx
        obtain ⟨i, hi, -⟩ := hps.jumpAt x hx
        have hset := getElem?_fixjump hfix x
        by_cases hxl : x = l
        · rw [if_pos hxl, hi, Option.map_some] at hset
          exact ⟨i, _, hi, hset, rfl, rfl⟩
        · rw [if_neg hxl, hi] at hset
          exact ⟨i, i, hi, hset, rfl, rfl⟩
      · intro x hx
        have hxl : x ≠ l := by
          rintro rfl
          exact hx hmem
        rw [getElem?_fixjump hfix, if_neg hxl]

/-- Two lists become one. -/
theorem Lists.join (h : Lists code counts (ps :: qs :: lists)) (hjoined : Joined code code' ps qs) :
    Lists code' counts ((ps ++ qs) :: lists) := by
  have hflat : ((ps ++ qs) :: lists).flatten = (ps :: qs :: lists).flatten := by simp
  have hdisjoint := (List.nodup_append.mp (List.flatten_cons ▸ h.nodup)).2.2
  refine ⟨fun rs hrs => ?_, by rw [hflat]; exact h.nodup, fun p hp => ?_⟩
  · rcases List.mem_cons.mp hrs with rfl | hrs
    · exact hjoined.chain
    · refine (h.chains rs (by simp [hrs])).congr fun p hp => hjoined.others p fun hmem => ?_
      exact hdisjoint p hmem p (List.mem_flatten.mpr ⟨rs, List.mem_cons_of_mem _ hrs, hp⟩) rfl
  · rw [hflat, hjoined.length]
    exact h.counts p hp

theorem Lists.concat_ends (h : Lists fs.code fs.counts (ps :: qs :: lists)) :
    Ends (fun r => r.1 = (ps ++ qs).head? ∧ Joined fs.code r.2.code ps qs ∧ r.2 = { fs with code := r.2.code })
      (luaKConcat fs ps.head? qs.head?) := by
  have hnodup : (ps ++ qs).Nodup := by
    have hall := h.nodup
    rw [List.flatten_cons, List.flatten_cons, ← List.append_assoc] at hall
    exact (List.nodup_append.mp hall).1
  exact luaKConcat_ends (h.chains ps (by simp)) (h.chains qs (by simp)) hnodup

theorem luaKPatchtohere_ends (h : Held fs jps (ps :: lists)) :
    Ends (fun fs' => Joined fs.code fs'.code jps ps ∧ fs'.counts = fs.counts ∧ Held fs' (jps ++ ps) lists)
      (luaKPatchtohere fs ps.head?) := by
  have hlabel : Lists (luaKGetlabel fs).code (luaKGetlabel fs).counts (jps :: ps :: lists) := h.lists
  unfold luaKPatchtohere
  dsimp only
  have hjpc : (luaKGetlabel fs).jpc = jps.head? := h.jpc
  rw [hjpc]
  refine hlabel.concat_ends.bind fun r hr => ?_
  obtain ⟨l, fs'⟩ := r
  obtain ⟨hl, hjoined, heq⟩ := hr
  have hl : l = (jps ++ ps).head? := hl
  have heq : fs' = { luaKGetlabel fs with code := fs'.code } := heq
  have hcounts : fs'.counts = fs.counts := by
    rw [heq]
    rfl
  refine .ok ⟨hjoined, hcounts, hl, ?_⟩
  change Lists fs'.code fs'.counts _
  rw [hcounts]
  exact h.lists.join hjoined

theorem Held.coded (h : Held fs jps lists) (hrun : luaKCode fs i = .ok fs') : Held fs' [] lists := by
  have hends := luaKCode_ends h i
  rw [hrun] at hends
  obtain ⟨code, -, hlists, rfl⟩ := hends.of_ok
  exact ⟨rfl, (hlists.append i).cons_nil⟩

/-- A count is no jump. -/
theorem Held.count (h : Held fs [] lists) (hrun : luaKCode { fs with counts := fs.pc :: fs.counts } i = .ok fs') :
    Held fs' [] lists := by
  unfold luaKCode dischargejpc patchlistaux at hrun
  have hjpc : fs.jpc = none := h.jpc
  simp only [hjpc, patchlistLoop] at hrun
  cases hrun
  have hlists := h.lists.append i
  refine ⟨rfl, hlists.chains, hlists.nodup, fun p hp => ?_⟩
  rcases List.mem_cons.mp hp with rfl | hp
  · refine ⟨?_, fun hmem => Nat.lt_irrefl _ (h.lists.jumpAt _ hmem).lt⟩
    rw [List.length_append]
    exact Nat.lt_succ_self _
  · exact hlists.counts p hp

theorem Held.setlist {base nelems : Nat} {tostore : Option Nat} (h : Held fs jps lists)
    (hrun : luaKSetlist fs base nelems tostore = .ok fs') : Held fs' [] lists := by
  unfold luaKSetlist at hrun
  dsimp only at hrun
  split_ifs at hrun
  · exact h.coded hrun
  · cases hfirst : luaKCode fs ⟨OP_SETLIST, base, tostore.getD 0, 0⟩ with
    | error e =>
      rw [hfirst] at hrun
      cases hrun
    | ok fs₁ =>
      rw [hfirst] at hrun
      have hheld := h.coded hfirst
      cases hsecond : luaKCode { fs₁ with counts := fs₁.pc :: fs₁.counts }
          (.ofWord ((nelems - 1) / LFIELDS_PER_FLUSH + 1)) with
      | error e =>
        change (luaKCode { fs₁ with counts := fs₁.pc :: fs₁.counts } _ >>= _) = _ at hrun
        rw [hsecond] at hrun
        cases hrun
      | ok fs₂ =>
        change (luaKCode { fs₁ with counts := fs₁.pc :: fs₁.counts } _ >>= _) = _ at hrun
        rw [hsecond] at hrun
        cases hrun
        exact hheld.count hsecond

theorem Held.loop {op : OpCode} {a : Nat} (h : Held fs jps lists) (hop : isJump op = true)
    (hrun : luaKCode fs (unpatched op a) = .ok fs') : Held fs' [] ([fs.pc] :: lists) := by
  have hends := luaKCode_ends h (unpatched op a)
  rw [hrun] at hends
  obtain ⟨code, hcode, hlists, rfl⟩ := hends.of_ok
  have hextend := hlists.extend hop a
  rw [hcode.length] at hextend
  exact ⟨rfl, hextend.cons_nil⟩

theorem Held.jump {l : Option Nat} (h : Held fs jps lists) (hrun : luaKJump fs = .ok (l, fs')) :
    Held fs' [] ((fs.pc :: jps) :: lists) := by
  have hstart : Held { fs with jpc := none } [] (jps :: lists) := ⟨rfl, h.lists.cons_nil⟩
  unfold luaKJump at hrun
  dsimp only at hrun
  cases hcode : luaKCode { fs with jpc := none } (unpatched OP_JMP 0) with
  | error e =>
    rw [hcode] at hrun
    cases hrun
  | ok fs₁ =>
    rw [hcode] at hrun
    have hheld : Held fs₁ [] ([fs.pc] :: jps :: lists) := hstart.loop (by decide) hcode
    have hends := hheld.lists.tail.concat_ends
    change luaKConcat fs₁ (some fs.pc) fs.jpc = _ at hrun
    rw [h.jpc] at hrun
    rw [List.head?_cons, hrun] at hends
    obtain ⟨-, hjoined, heq⟩ := hends.of_ok
    have heq : fs' = { fs₁ with code := fs'.code } := heq
    refine ⟨?_, ?_⟩
    · rw [heq]
      exact hheld.jpc
    · rw [heq]
      exact (hheld.lists.tail.join hjoined).cons_nil

theorem Held.patchlistaux {vtarget reg dtarget : Nat} (h : Held fs jps (ps :: lists))
    (hrun : patchlistaux fs ps.head? vtarget reg dtarget = .ok fs') : Held fs' jps lists := by
  have hlists := h.lists.perm (.swap ps jps lists)
  have hends := patchlistaux_ends hlists List.mem_cons_self vtarget reg dtarget
  rw [hrun] at hends
  obtain ⟨hcode, heq⟩ := hends.of_ok
  rw [heq]
  exact ⟨h.jpc, hlists.patched hcode⟩

theorem Generates.held (h : Generates fs jps lists) : Held fs jps lists := by
  induction h with
  | new => exact ⟨rfl, ⟨by simp [Chain], by simp, by simp⟩⟩
  | code _ _ hrun ih => exact ih.coded hrun
  | setlist _ hrun ih => exact ih.setlist hrun
  | jump _ hrun ih => exact ih.jump hrun
  | loop _ hop hrun ih =>
    rcases hop with rfl | rfl
    · exact ih.loop (by decide) hrun
    · exact ih.loop (by decide) hrun
  | @edit fs _ _ p i i' _ hi hold _ ih =>
    refine ⟨ih.jpc, ih.lists.of_jumps (fun q hq => ?_) (fun ps hps => .inr hps) (List.Sublist.refl _) ?_⟩
    · change q < (fs.code.set p i').length
      rw [List.length_set]
      exact (ih.lists.counts q hq).1
    · intro q _ hjump
      obtain ⟨j, hj, hop⟩ := hjump
      have hne : p ≠ q := by
        rintro rfl
        obtain rfl := Option.some_inj.mp (hi.symm.trans hj)
        rw [hold] at hop
        cases hop
      exact List.getElem?_set_ne hne
  | @dropNot fs _ _ i code _ hi hop hp ih =>
    refine ⟨ih.jpc, ih.lists.of_jumps (fun q hq => ?_) (fun ps hps => .inr hps) (List.Sublist.refl _) ?_⟩
    · have hlt := (ih.lists.counts q hq).1
      have hne : q ≠ code.length := fun heq => hp (heq ▸ hq)
      rw [hi, List.length_append, List.length_singleton] at hlt
      change q < code.length
      omega
    · intro q _ hjump
      obtain ⟨j, hj, hopj⟩ := hjump
      have hlt : q < code.length := by
        have hlt := (List.getElem?_eq_some_iff.mp hj).1
        rw [hi, List.length_append, List.length_singleton] at hlt
        have hne : q ≠ code.length := by
          rintro rfl
          rw [hi, List.getElem?_append_right (Nat.le_refl _), Nat.sub_self] at hj
          obtain rfl := Option.some_inj.mp hj
          rw [hop] at hopj
          exact absurd hopj (by decide)
        omega
      change code[q]? = fs.code[q]?
      rw [hi, List.getElem?_append_left hlt]
  | empty _ ih =>
    refine ⟨ih.jpc, ?_⟩
    exact ih.lists.cons_nil.perm (.swap _ _ _)
  | perm _ hperm ih => exact ⟨ih.jpc, ih.lists.perm (hperm.cons _)⟩
  | @concat fs fs' jps ps qs lists l _ hrun ih =>
    have hlists : Lists fs.code fs.counts (ps :: qs :: jps :: lists) :=
      ih.lists.perm ((List.Perm.swap ps jps (qs :: lists)).trans ((List.Perm.swap qs jps lists).cons ps))
    have hends := hlists.concat_ends
    rw [hrun] at hends
    obtain ⟨-, hjoined, heq⟩ := hends.of_ok
    have heq : fs' = { fs with code := fs'.code } := heq
    rw [heq]
    exact ⟨ih.jpc, (hlists.join hjoined).perm (.swap _ _ _)⟩
  | getlabel _ ih => exact ⟨ih.jpc, ih.lists⟩
  | patchtohere _ hrun ih =>
    have hends := luaKPatchtohere_ends ih
    rw [hrun] at hends
    exact hends.of_ok.2.2
  | patchlist _ hrun ih =>
    unfold luaKPatchlist at hrun
    split_ifs at hrun ⊢
    · have hends := luaKPatchtohere_ends ih
      rw [hrun] at hends
      exact hends.of_ok.2.2
    · exact ih.patchlistaux hrun
  | patchlistaux _ hrun ih => exact ih.patchlistaux hrun
  | @removevalues fs fs' jps ps lists _ hrun ih =>
    have hends := removevalues_ends ih.lists (List.mem_cons_of_mem _ List.mem_cons_self)
    rw [hrun] at hends
    obtain ⟨hcode, hjumps, heq⟩ := hends.of_ok
    rw [heq]
    refine ⟨ih.jpc, ih.lists.of_jumps (fun p hp => ?_) (fun ps hps => .inr hps) (List.Sublist.refl _)
      fun p _ hp => hjumps p hp⟩
    change p < fs'.code.length
    rw [hcode.length]
    exact (ih.lists.counts p hp).1

end Steps

/-! ## What patching changes -/

/-- Nothing is changed but jumps of the lists, in their offset, and tests that control them, which are no
counts. -/
structure Framed (fs : FuncState) (ps : List Nat) (fs' : FuncState) : Prop where
  pc : fs'.pc = fs.pc
  jumps : ∀ p ∈ ps, ∃ i i', fs.code[p]? = some i ∧ fs'.code[p]? = some i' ∧ i'.op = i.op ∧ i'.a = i.a
  tests : ∀ q, q ∉ ps → fs'.code[q]? ≠ fs.code[q]? →
    q + 1 ∈ ps ∧ q ∉ fs.counts ∧ ∃ i, fs.code[q]? = some i ∧ i.op = OP_TESTSET

/-- No jump of the list comes right after a count that looks like an `OP_TESTSET`, unless the count also has
the register in its `A`, and not in its `B`. -/
def Spares (fs : FuncState) (reg : Nat) (ps : List Nat) : Prop :=
  ∀ q ∈ fs.counts, q + 1 ∈ ps → ∀ i, fs.code[q]? = some i → i.op = OP_TESTSET →
    reg ≠ noReg ∧ reg ≠ i.b ∧ i.a = reg

/-- A way to patch lists. -/
inductive Patch where
  | patchlistaux (vtarget reg dtarget : Nat)
  | removevalues
  | dischargejpc
  | patchtohere
  | patchlist (target : Nat)

namespace Patch

/-- What is patched: the jumps of `jpc`, or a list that the parser holds. -/
def Takes (jps : List Nat) (lists : List (List Nat)) (ps : List Nat) : Patch → Prop
  | .dischargejpc => ps = jps
  | _ => ps ∈ lists

def run (fs : FuncState) (ps : List Nat) : Patch → Except Stop FuncState
  | .patchlistaux vtarget reg dtarget => Jumps.patchlistaux fs ps.head? vtarget reg dtarget
  | .removevalues => Jumps.removevalues fs ps.head?
  | .dischargejpc => Jumps.dischargejpc fs
  | .patchtohere => luaKPatchtohere fs ps.head?
  | .patchlist target => luaKPatchlist fs ps.head? target

/-- The jumps that may change. -/
def jumps (fs : FuncState) (jps ps : List Nat) : Patch → List Nat
  | .patchtohere => jps ++ ps
  | .patchlist target => if target = fs.pc then jps ++ ps else ps
  | _ => ps

def Spares (fs : FuncState) (ps : List Nat) : Patch → Prop
  | .patchlistaux _ reg _ => Jumps.Spares fs reg ps
  | .patchtohere => True
  | .patchlist target => target = fs.pc ∨ Jumps.Spares fs noReg ps
  | _ => Jumps.Spares fs noReg ps

end Patch

section Frame

variable {fs fs' : FuncState} {jps ps : List Nat} {lists : List (List Nat)} {reg : Nat} {i : Instruction}

theorem retest_eq_iff (h : i.op = OP_TESTSET) : retest reg i = i ↔ reg ≠ noReg ∧ reg ≠ i.b ∧ i.a = reg := by
  unfold retest
  rw [if_neg (by simp [h])]
  split_ifs with hreg
  · constructor
    · intro heq
      exact ⟨hreg.1, hreg.2, (congrArg Instruction.a heq).symm⟩
    · rintro ⟨-, -, rfl⟩
      rfl
  · constructor
    · intro heq
      rw [← heq] at h
      cases h
    · rintro ⟨hne, hb, -⟩
      exact absurd ⟨hne, hb⟩ hreg

theorem Patched.framed_iff (h : Lists fs.code fs.counts lists) (hps : ps ∈ lists)
    (hcode : Patched reg ps fs.code fs'.code) : Framed fs ps fs' ↔ Jumps.Spares fs reg ps := by
  have hcount : ∀ q ∈ fs.counts, q ∉ ps := fun q hq hmem =>
    (h.counts q hq).2 (List.mem_flatten.mpr ⟨ps, hps, hmem⟩)
  constructor
  · intro hframed q hq hnext i hi hop
    by_contra hchange
    have hne : fs'.code[q]? ≠ fs.code[q]? := by
      rw [hcode.others q (hcount q hq), if_pos hnext, hi, Option.map_some]
      intro heq
      exact hchange ((retest_eq_iff hop).mp (Option.some_inj.mp heq))
    exact (hframed.tests q (hcount q hq) hne).2.1 hq
  · intro hspares
    refine ⟨hcode.length, hcode.jumps, fun q hq hne => ?_⟩
    rw [hcode.others q hq] at hne
    split_ifs at hne with hnext
    · cases hi : fs.code[q]? with
      | none =>
        rw [hi] at hne
        exact absurd rfl hne
      | some i =>
        rw [hi, Option.map_some] at hne
        have hop : i.op = OP_TESTSET := by
          by_contra hop
          exact hne (congrArg some (retest_of_ne hop))
        refine ⟨hnext, fun hmem => hne (congrArg some ?_), i, rfl, hop⟩
        exact (retest_eq_iff hop).mpr (hspares q hmem hnext i hi hop)
    · exact absurd rfl hne

theorem Joined.framed {qs : List Nat} (hqs : Chain fs.code qs) (h : Joined fs.code fs'.code ps qs) : Framed fs (ps ++ qs) fs' := by
  refine ⟨h.length, fun p hp => ?_, fun q hq hne => absurd (h.others q ?_) hne⟩
  · by_cases hps : p ∈ ps
    · exact h.jumps p hps
    · have hin := (List.mem_append.mp hp).resolve_left hps
      obtain ⟨i, hi, -⟩ := hqs.jumpAt p hin
      exact ⟨i, i, hi, by rw [h.others p hps, hi], rfl, rfl⟩
  · exact fun hmem => hq (List.mem_append_left _ hmem)

theorem patchtohere_framed (h : Held fs jps lists) (hps : ps ∈ lists) :
    Ends (Framed fs (jps ++ ps)) (luaKPatchtohere fs ps.head?) := by
  have hperm : lists.Perm (ps :: lists.erase ps) := List.perm_cons_erase hps
  have hheld : Held fs jps (ps :: lists.erase ps) := ⟨h.jpc, h.lists.perm (hperm.cons jps)⟩
  have hchain := h.lists.chains ps (List.mem_cons_of_mem _ hps)
  exact (luaKPatchtohere_ends hheld).mono fun fs' hfs' => hfs'.1.framed hchain

/-- Patching comes to an end, and it changes what it may change exactly when no count is taken for a test. -/
theorem Generates.patch_framed_iff (h : Generates fs jps lists) {patch : Patch} (hps : patch.Takes jps lists ps) :
    Ends (fun fs' => Framed fs (patch.jumps fs jps ps) fs' ↔ patch.Spares fs ps) (patch.run fs ps) := by
  have hheld := h.held
  cases patch with
  | patchlistaux vtarget reg dtarget =>
    have hmem : ps ∈ jps :: lists := List.mem_cons_of_mem _ hps
    exact (patchlistaux_ends hheld.lists hmem vtarget reg dtarget).mono fun fs' hfs' =>
      hfs'.1.framed_iff hheld.lists hmem
  | removevalues =>
    have hmem : ps ∈ jps :: lists := List.mem_cons_of_mem _ hps
    exact (removevalues_ends hheld.lists hmem).mono fun fs' hfs' => hfs'.1.framed_iff hheld.lists hmem
  | dischargejpc =>
    obtain rfl : ps = jps := hps
    exact (dischargejpc_ends hheld).mono fun fs' hfs' => hfs'.1.framed_iff hheld.lists List.mem_cons_self
  | patchtohere => exact (patchtohere_framed hheld hps).mono fun fs' hfs' => iff_of_true hfs' trivial
  | patchlist target =>
    unfold Patch.jumps Patch.Spares Patch.run luaKPatchlist
    dsimp only
    split_ifs with htarget
    · exact (patchtohere_framed hheld hps).mono fun fs' hfs' => iff_of_true hfs' (.inl htarget)
    · have hmem : ps ∈ jps :: lists := List.mem_cons_of_mem _ hps
      refine (patchlistaux_ends hheld.lists hmem target noReg target).mono fun fs' hfs' => ?_
      rw [hfs'.1.framed_iff hheld.lists hmem]
      exact ⟨.inr, fun h => h.resolve_left htarget⟩

end Frame

/-- A constructor of so many batches, and the jump back of the loop whose body it is. -/
def loopOver (batches : Nat) : FuncState :=
  ⟨[⟨OP_SETLIST, 0, 1, 0⟩, .ofWord batches, unpatched OP_JMP 0], none, -1, [1]⟩

theorem loopOver_generates (nelems : Nat) (h : maxargC < (nelems - 1) / LFIELDS_PER_FLUSH + 1) :
    Generates (loopOver ((nelems - 1) / LFIELDS_PER_FLUSH + 1)) [] [[2]] := by
  have hset : luaKSetlist ⟨[], none, -1, []⟩ 0 nelems (some 1) =
      .ok ⟨[⟨OP_SETLIST, 0, 1, 0⟩, .ofWord ((nelems - 1) / LFIELDS_PER_FLUSH + 1)], none, -1, [1]⟩ := by
    unfold luaKSetlist
    dsimp only
    rw [if_neg (Nat.not_le_of_lt h)]
    rfl
  exact .jump (.setlist .new hset) rfl

/-- With 544 batches the jump back is all that is changed. -/
theorem Generates.framed_loopOver :
    Ends (fun fs' => Framed (loopOver 544) [2] fs' ↔ Patch.Spares (loopOver 544) [2] (.patchlist 0))
      (Patch.run (loopOver 544) [2] (.patchlist 0)) :=
  @Generates.patch_framed_iff _ [] [2] [[2]] (loopOver_generates 27151 (by decide)) (.patchlist 0) List.mem_cons_self

/-- The count 545 is an `OP_TESTSET` for its low bits, and becomes an `OP_TEST`. -/
theorem Generates.rewrites_count :
    ∃ fs', Generates (loopOver 545) [] [[2]] ∧ (loopOver 545).code[1]?.map toWord = some 545 ∧
      1 ∈ (loopOver 545).counts ∧ luaKPatchlist (loopOver 545) (some 2) 0 = .ok fs' ∧
      fs'.code[1]? = some ⟨OP_TEST, 0, 0, 0⟩ ∧ ¬ Framed (loopOver 545) [2] fs' := by
  refine ⟨_, loopOver_generates 27201 (by decide), rfl, List.mem_cons_self, rfl, rfl, fun hframed => ?_⟩
  exact (hframed.tests 1 (by decide) (by decide)).2.1 List.mem_cons_self

end UgmeeLua.Jumps

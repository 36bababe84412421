import UgmeeLua.Lgc.Allocation

namespace UgmeeLua.Gc

/-! ## Upvalues that are found -/

section Found

variable {g g' g'' : State} {o c : GCObject}

theorem remarked_resurrect (h : OneWhite g.currentwhite) (hdead : Dead g o) (hu : ∀ u, o ≠ .userdata u) :
    Remarked o (changewhite (g.marked o)) g (g.mark o changewhite) := by
  have hnew := isfresh.changewhite hdead h
  refine ⟨rfl, fun hf => ?_, fun hd' => absurd hd' (hnew.not_other h), .inl hnew, fun hb => ?_, .inl ?_,
    fun _ hu' => ?_⟩
  · exact absurd hdead (hf.not_dead h)
  · rw [hnew.notblack h] at hb
    cases hb
  · have hbit : changewhite (g.marked o) &&& bitmask FIXEDBIT = g.marked o &&& bitmask FIXEDBIT := by
      rw [changewhite, xor_and, show WHITEBITS &&& bitmask FIXEDBIT = 0 by decide]
      exact BitVec.xor_zero
    rw [testbit, hbit]
    rfl
  · obtain ⟨u, hu'⟩ := hu'
    exact absurd hu' (hu u)

/-- What lives stays, and what is new; the objects are the same but for new upvalues. -/
structure Grows (new : List Nat) (g g' : State) : Prop where
  alive : ∀ c, Alive g c → Alive g' c
  fresh : ∀ c ∈ g.objects, Fresh g c → Fresh g' c
  objects : ∀ c ∈ g'.objects, c ∈ g.objects ∨ ∃ uv ∈ new, c = .upval uv
  running : g'.running = g.running
  top : (g'.heap.thread g.running).top = (g.heap.thread g.running).top
  closure : g'.heap.closure = g.heap.closure

theorem Grows.rfl (new : List Nat) (g : State) : Grows new g g :=
  ⟨fun _ h => h, fun _ _ h => h, fun _ h => .inl h, Eq.refl _, Eq.refl _, Eq.refl _⟩

theorem Grows.trans {new new' : List Nat} (h : Grows new g g') (h' : Grows new' g' g'')
    (hin : ∀ c ∈ g.objects, c ∈ g'.objects) : Grows (new ++ new') g g'' := by
  refine ⟨fun c hc => h'.alive c (h.alive c hc), fun c hc hf => h'.fresh c (hin c hc) (h.fresh c hc hf),
    fun c hc => ?_, h'.running.trans h.running, ?_, h'.closure.trans h.closure⟩
  · rcases h'.objects c hc with hc | ⟨uv, huv, heq⟩
    · exact (h.objects c hc).imp_right fun hnew => hnew.imp fun uv huv => ⟨List.mem_append_left _ huv.1, huv.2⟩
    · exact .inr ⟨uv, List.mem_append_right _ huv, heq⟩
  · have htop := h'.top
    rw [h.running] at htop
    exact htop.trans h.top

theorem resurrect_inv (h : Inv g) (ho : o ∈ g.objects) (hu : ∀ u, o ≠ .userdata u)
    (hrefs : ∀ c ∈ refs g.heap o, Alive g c) :
    Inv (resurrect o g) ∧ Grows [] g (resurrect o g) ∧ Alive (resurrect o g) o ∧
      (resurrect o g).objects = g.objects := by
  rw [resurrect]
  split_ifs with hd
  · have hdead := (h.isdead_iff ho).mp hd
    have hr := remarked_resurrect h.onewhite hdead hu
    have hinv := h.remark hr (fun _ => hrefs) fun hs => absurd hdead ((h.marks hs).alive o ho)
    refine ⟨hinv, ⟨fun c hc => ⟨hc.1, fun hd' => hc.2 (hr.was_dead hd')⟩, fun c _ => hr.keeps_fresh, fun c hc => .inl hc,
      rfl, rfl, rfl⟩, ⟨ho, fun hd' => ?_⟩, rfl⟩
    rw [Dead, hr.self] at hd'
    exact (isfresh.changewhite hdead h.onewhite).not_other h.onewhite hd'
  · exact ⟨h, Grows.rfl [] g, ⟨ho, fun hdead => hd ((h.isdead_iff ho).mpr hdead)⟩, rfl⟩

theorem Inv.running (h : Inv g) : Alive g (.thread g.running) := h.roots _ (List.mem_cons_of_mem _ List.mem_cons_self)

/-- A slot of the running thread that is in use holds something that lives. -/
theorem Inv.slot (h : Inv g) {level : Nat} (hlevel : level < (g.heap.thread g.running).top) :
    ∀ c ∈ gcvalues [(g.heap.thread g.running).stack level], Alive g c := by
  intro c hc
  obtain ⟨v, hv, hval⟩ := mem_gcvalues.mp hc
  rw [List.mem_singleton.mp hv] at hval
  refine h.live _ h.running.1 h.running.2 c (mem_gcvalues.mpr ⟨_, List.mem_cons_of_mem _ ?_, hval⟩)
  exact List.mem_map_of_mem (List.mem_range.mpr hlevel)

/-- A new open upvalue of the running thread is put into its list. -/
theorem made_openupval {level uv : Nat} {l l' : List Nat} (h : Inv g) (hnew : .upval uv ∉ g.objects)
    (hlevel : level < (g.heap.thread g.running).top) (hsplit : (g.heap.thread g.running).openupval = l ++ l') :
    let hp := (g.heap.setThread g.running
      { g.heap.thread g.running with openupval := l ++ uv :: l' }).setUpval uv (.opened g.running level)
    Made (.upval uv) g { newmark (.upval uv) (g.setHeap hp) with uvhead := uv :: g.uvhead } := by
  intro hp
  have hself : hp.upval uv = .opened g.running level := Heap.upval_self ..
  have hother : ∀ uv', uv' ≠ uv → hp.upval uv' = g.heap.upval uv' := fun uv' hne => Heap.upval_other _ _ hne
  have hrunning : hp.thread g.running = { g.heap.thread g.running with openupval := l ++ uv :: l' } :=
    Heap.thread_self ..
  have hthread : ∀ th, th ≠ g.running → hp.thread th = g.heap.thread th := fun th hne => Heap.thread_other _ _ hne
  have hvalues : ∀ th, (hp.thread th).gt = (g.heap.thread th).gt ∧ (hp.thread th).stack = (g.heap.thread th).stack ∧
      (hp.thread th).top = (g.heap.thread th).top := by
    intro th
    by_cases heq : th = g.running
    · rw [heq, hrunning]
      exact ⟨rfl, rfl, rfl⟩
    · rw [hthread th heq]
      exact ⟨rfl, rfl, rfl⟩
  have hne : ∀ uv', GCObject.upval uv' ∈ g.objects → uv' ≠ uv := fun uv' hin heq => hnew (heq ▸ hin)
  have hinuv : ∀ uv' ∈ g.uvhead, GCObject.upval uv' ∈ g.objects := fun uv' huv =>
    mem_objects_iff.mpr (.inr (.inr (.inr (.inl ⟨uv', huv, rfl⟩))))
  have hperm : (State.objects { newmark (.upval uv) (g.setHeap hp) with uvhead := uv :: g.uvhead }).Perm
      (.upval uv :: g.objects) := by
    change (g.mainlist ++ (g.strt.flatten.map GCObject.string ++ (.upval uv :: (g.uvhead.map GCObject.upval ++
      g.tmudata.map GCObject.userdata)))).Perm _
    rw [← List.append_assoc, State.objects, ← List.append_assoc]
    exact List.perm_middle
  have hin : ∀ {x}, x ∈ g.objects → x ∈ State.objects { newmark (.upval uv) (g.setHeap hp) with uvhead := uv :: g.uvhead } :=
    fun hx => hperm.mem_iff.mpr (List.mem_cons_of_mem _ hx)
  obtain ⟨hnodup, hall⟩ := h.lists.openupval g.running h.running.1
  rw [hsplit] at hnodup hall
  refine ⟨rfl, rfl, hnew, hperm, fun uv' huv => hother uv' (hne uv' huv), fun x hx => ?_, fun c hc => ?_, fun x hx => ?_,
    fun uv' huv => ?_, fun th hth => ?_, fun _ _ hts => .inr hts, fun uv' huv => ?_, fun x hx => .inr hx,
    fun x hx => hx, fun _ x hx => hx⟩
  · cases x with
    | upval uv' =>
      rw [refs, refs, Heap.upvalue, Heap.upvalue, show State.heap _ = hp from rfl, hother uv' (hne uv' hx)]
      cases g.heap.upval uv' with
      | closed v => rfl
      | opened th level' =>
        simp only
        rw [(hvalues th).2.1]
    | thread th =>
      rw [refs, refs, Thread.refs, Thread.refs, show State.heap _ = hp from rfl, (hvalues th).1, (hvalues th).2.1,
        (hvalues th).2.2]
    | string ts => rfl
    | userdata u => rfl
    | function cl => rfl
    | table t => rfl
    | proto q => rfl
  · rw [refs, show State.heap _ = hp from rfl, upvalue_of_opened hp hself, (hvalues g.running).2.1] at hc
    exact h.slot hlevel c hc
  · have hold := h.lists.rootgc x hx
    cases x with
    | upval uv' =>
      obtain ⟨v, hv⟩ := hold
      exact ⟨v, (hother uv' (hne uv' (List.mem_append_left _ (List.mem_append_left _ hx)))).trans hv⟩
    | string ts => exact hold
    | userdata u => exact hold
    | function cl => trivial
    | table t => trivial
    | thread th => trivial
    | proto q => trivial
  · rcases List.mem_cons.mp huv with rfl | huv
    · refine ⟨g.running, level, hself, hin h.running.1, ?_⟩
      rw [show State.heap _ = hp from rfl, hrunning]
      exact List.mem_append_right _ List.mem_cons_self
    · obtain ⟨th, level', hopen, hth, hmem⟩ := h.lists.uvhead uv' huv
      refine ⟨th, level', (hother uv' (hne uv' (hinuv uv' huv))).trans hopen, hin hth, ?_⟩
      by_cases heq : th = g.running
      · subst heq
        rw [hsplit] at hmem
        rw [show State.heap _ = hp from rfl, hrunning]
        exact List.perm_middle.mem_iff.mpr (List.mem_cons_of_mem _ hmem)
      · rw [show State.heap _ = hp from rfl, hthread th heq]
        exact hmem
  · rw [show State.heap _ = hp from rfl]
    have hth' : GCObject.thread th ∈ g.objects := by
      rcases List.mem_cons.mp (hperm.mem_iff.mp hth) with heq | hth
      · cases heq
      · exact hth
    by_cases heq : th = g.running
    · subst heq
      rw [hrunning]
      refine ⟨List.perm_middle.nodup_iff.mpr (List.nodup_cons.mpr ⟨fun hmem => ?_, hnodup⟩), fun uv' huv => ?_⟩
      · exact hne uv (hinuv uv (hall uv hmem).1) rfl
      · rcases List.mem_cons.mp (List.perm_middle.mem_iff.mp huv) with rfl | huv
        · exact ⟨List.mem_cons_self, level, hself⟩
        · obtain ⟨huvhead, level', hopen⟩ := hall uv' huv
          exact ⟨List.mem_cons_of_mem _ huvhead, level', (hother uv' (hne uv' (hinuv uv' huvhead))).trans hopen⟩
    · rw [hthread th heq]
      obtain ⟨hnodup', hall'⟩ := h.lists.openupval th hth'
      refine ⟨hnodup', fun uv' huv => ?_⟩
      obtain ⟨huvhead, level', hopen⟩ := hall' uv' huv
      exact ⟨List.mem_cons_of_mem _ huvhead, level', (hother uv' (hne uv' (hinuv uv' huvhead))).trans hopen⟩
  · rcases List.mem_cons.mp huv with rfl | huv
    · exact .inl rfl
    · exact .inr huv

theorem Made.grows {uv : Nat} (hm : Made (.upval uv) g g') (hrunning : g'.running = g.running)
    (htop : (g'.heap.thread g.running).top = (g.heap.thread g.running).top) (hclosure : g'.heap.closure = g.heap.closure) :
    Grows [uv] g g' :=
  ⟨fun _ => hm.keeps_alive, fun _ => hm.keeps_fresh, fun _ hc => (hm.mem.mp hc).symm.imp_right fun heq =>
    ⟨uv, List.mem_singleton_self uv, heq⟩, hrunning, htop, hclosure⟩

/-- `luaF_findupval`: the upvalue that is found lives. -/
theorem findupval_inv {level uv : Nat} (h : Inv g) (hnew : .upval uv ∉ g.objects)
    (hlevel : level < (g.heap.thread g.running).top) :
    let r := luaFFindupval level uv g
    Inv r.2 ∧ Grows [uv] g r.2 ∧ Alive r.2 (.upval r.1) ∧ ∀ c ∈ g.objects, c ∈ r.2.objects := by
  intro r
  let above := (g.heap.thread g.running).openupval.takeWhile fun p => level ≤ levelOf g.heap p
  have hsplit : (g.heap.thread g.running).openupval = above ++ (g.heap.thread g.running).openupval.drop above.length := by
    have htake := List.takeWhile_append_dropWhile (p := fun p => decide (level ≤ levelOf g.heap p))
      (l := (g.heap.thread g.running).openupval)
    have hdrop : (g.heap.thread g.running).openupval.drop above.length =
        (g.heap.thread g.running).openupval.dropWhile fun p => decide (level ≤ levelOf g.heap p) := by
      nth_rewrite 1 [← htake]
      exact List.drop_left
    rw [hdrop]
    exact htake.symm
  cases hfind : above.find? fun p => levelOf g.heap p = level with
  | some p =>
    have hr : r = (p, resurrect (.upval p) g) := by
      simp only [above] at hfind
      simp only [r, luaFFindupval, hfind]
    rw [hr]
    have hmem : p ∈ (g.heap.thread g.running).openupval := by
      rw [hsplit]
      exact List.mem_append_left _ (List.mem_of_find?_eq_some hfind)
    obtain ⟨huvhead, level', hopen⟩ := (h.lists.openupval g.running h.running.1).2 p hmem
    have hlv : levelOf g.heap p = level := by simpa using List.find?_some hfind
    rw [levelOf, hopen] at hlv
    simp only at hlv
    subst hlv
    obtain ⟨hinv, hgrows, halive, hobjects⟩ := resurrect_inv h (o := .upval p)
      (mem_objects_iff.mpr (.inr (.inr (.inr (.inl ⟨p, huvhead, rfl⟩))))) (by simp) fun c hc => by
        rw [refs, upvalue_of_opened g.heap hopen] at hc
        exact h.slot hlevel c hc
    refine ⟨hinv, { hgrows with objects := fun c hc => .inl ?_ }, halive, fun c hc => hobjects.symm ▸ hc⟩
    rwa [hobjects] at hc
  | none =>
    have hr : r = (uv, { newmark (.upval uv) (g.setHeap ((g.heap.setThread g.running
        { g.heap.thread g.running with
          openupval := above ++ uv :: (g.heap.thread g.running).openupval.drop above.length }).setUpval uv
        (.opened g.running level))) with uvhead := uv :: g.uvhead }) := by
      simp only [above] at hfind
      simp only [r, luaFFindupval, hfind, above]
    rw [hr]
    have hm := made_openupval h hnew hlevel hsplit
    refine ⟨hm.inv h, hm.grows rfl ?_ rfl, ⟨hm.mem.mpr (.inl rfl), ?_⟩, fun c hc => hm.mem.mpr (.inr hc)⟩
    · have hself : (g.heap.setThread g.running { g.heap.thread g.running with
          openupval := above ++ uv :: (g.heap.thread g.running).openupval.drop above.length }).thread g.running =
          { g.heap.thread g.running with
            openupval := above ++ uv :: (g.heap.thread g.running).openupval.drop above.length } := Heap.thread_self ..
      have htop := congrArg Thread.top hself
      exact htop
    · exact (hm.fresh h.onewhite).not_dead h.onewhite

/-- What a new function takes is there, and what is made is new. -/
def Capture.Fits (g : State) : Capture → Prop
  | share uv => Alive g (.upval uv)
  | find level uv => .upval uv ∉ g.objects ∧ level < (g.heap.thread g.running).top
  | new uv => .upval uv ∉ g.objects

theorem capture_inv {k : Capture} (h : Inv g) (hk : k.Fits g) :
    let r := capture k g
    Inv r.2 ∧ Grows k.made g r.2 ∧ Alive r.2 (.upval r.1) ∧ ∀ c ∈ g.objects, c ∈ r.2.objects := by
  cases k with
  | share uv => exact ⟨h, Grows.rfl _ g, hk, fun _ hc => hc⟩
  | find level uv => exact findupval_inv h hk.1 hk.2
  | new uv =>
    have hm := (differs_upval hk).link ⟨_, Heap.upval_self ..⟩ h
    exact ⟨hm.inv h, hm.grows rfl rfl rfl, ⟨hm.mem.mpr (.inl rfl), (hm.fresh h.onewhite).not_dead h.onewhite⟩,
      fun c hc => hm.mem.mpr (.inr hc)⟩

theorem Capture.Fits.grows {new : List Nat} {k : Capture} (hk : k.Fits g) (h : Grows new g g')
    (hnew : ∀ uv ∈ k.made, uv ∉ new) : k.Fits g' := by
  have hout : ∀ uv ∈ k.made, GCObject.upval uv ∉ g.objects → GCObject.upval uv ∉ g'.objects := by
    intro uv huv hin hin'
    rcases h.objects _ hin' with hc | ⟨uv', huv', heq⟩
    · exact hin hc
    · cases heq
      exact hnew uv huv huv'
  cases k with
  | share uv => exact h.alive _ hk
  | find level uv =>
    refine ⟨hout uv (List.mem_singleton_self uv) hk.1, ?_⟩
    rw [h.running, h.top]
    exact hk.2
  | new uv => exact hout uv (List.mem_singleton_self uv) hk

/-- The upvalues of a new function, one after the other. -/
theorem captures_inv {l : List Capture} (h : Inv g) (hl : ∀ k ∈ l, k.Fits g) (hnodup : (l.flatMap Capture.made).Nodup) :
    let r := captures l g
    Inv r.2 ∧ Grows (l.flatMap Capture.made) g r.2 ∧ (∀ uv ∈ r.1, Alive r.2 (.upval uv)) ∧
      ∀ c ∈ g.objects, c ∈ r.2.objects := by
  induction l generalizing g with
  | nil => exact ⟨h, Grows.rfl _ g, fun _ huv => (List.not_mem_nil huv).elim, fun _ hc => hc⟩
  | cons k l ih =>
    obtain ⟨h1, hg1, ha1, hin1⟩ := capture_inv h (hl k List.mem_cons_self)
    rw [List.flatMap_cons] at hnodup
    obtain ⟨-, hrest, hdisjoint⟩ := List.nodup_append.mp hnodup
    have hfits : ∀ k' ∈ l, k'.Fits (capture k g).2 := by
      intro k' hk'
      refine (hl k' (List.mem_cons_of_mem _ hk')).grows hg1 fun uv huv huv' => ?_
      exact hdisjoint uv huv' uv (List.mem_flatMap.mpr ⟨k', hk', huv⟩) rfl
    obtain ⟨h2, hg2, ha2, hin2⟩ := ih h1 hfits hrest
    refine ⟨h2, ?_, fun uv huv => ?_, fun c hc => hin2 c (hin1 c hc)⟩
    · rw [List.flatMap_cons]
      exact hg1.trans hg2 hin1
    · rcases List.mem_cons.mp huv with rfl | huv
      · exact hg2.alive _ ha1
      · exact ha2 uv huv

/-- A new Lua function. -/
theorem newLclosure_inv {cl env q : Nat} {l : List Capture} (h : Inv g) (hnew : .function cl ∉ g.objects)
    (henv : Alive g (.table env)) (hq : Alive g (.proto q)) (hl : ∀ k ∈ l, k.Fits g)
    (hnodup : (l.flatMap Capture.made).Nodup) :
    Inv (newLclosure cl env q l g) ∧ Alive (newLclosure cl env q l g) (.function cl) := by
  have hm : Made (.function cl) g (luaFNewLclosure cl env q g) := by
    refine Differs.link (differs_closure hnew fun c hc => ?_) trivial h
    rcases List.mem_pair.mp hc with rfl | rfl
    · exact henv
    · exact hq
  have h1 := hm.inv h
  have hfresh1 := hm.fresh h.onewhite
  have hfits : ∀ k ∈ l, k.Fits (luaFNewLclosure cl env q g) := by
    intro k hk
    have hold := hl k hk
    have hout : ∀ uv, GCObject.upval uv ∉ g.objects → GCObject.upval uv ∉ (luaFNewLclosure cl env q g).objects := by
      intro uv huv hin
      rcases hm.mem.mp hin with heq | hin
      · cases heq
      · exact huv hin
    cases k with
    | share uv => exact hm.keeps_alive hold
    | find level uv => exact ⟨hout uv hold.1, hold.2⟩
    | new uv => exact hout uv hold
  obtain ⟨h2, hg2, ha2, hin2⟩ := captures_inv h1 hfits hnodup
  have hself : GCObject.function cl ∈ (luaFNewLclosure cl env q g).objects := hm.mem.mpr (.inl rfl)
  have hcl : (captures l (luaFNewLclosure cl env q g)).2.heap.closure cl = .l env q [] := by
    rw [hg2.closure]
    exact Heap.closure_self ..
  have hfresh2 : Fresh (captures l (luaFNewLclosure cl env q g)).2 (.function cl) := hg2.fresh _ hself hfresh1
  have hbarred : Barred (.function cl) ((captures l (luaFNewLclosure cl env q g)).1.map GCObject.upval)
      (captures l (luaFNewLclosure cl env q g)).2 (captures l (luaFNewLclosure cl env q g)).2 := by
    refine h2.unbarred fun hb => ?_
    rw [hfresh2.notblack h2.onewhite] at hb
    cases hb
  refine ⟨?_, hin2 _ hself, ?_⟩
  · refine hbarred.storeClosure (fun c hc => ?_) fun c hc => ?_
    · obtain ⟨uv, huv, rfl⟩ := List.mem_map.mp hc
      exact ha2 uv huv
    · rw [hcl]
      rcases List.mem_cons.mp hc with rfl | hc
      · exact .inl List.mem_cons_self
      · rcases List.mem_cons.mp hc with rfl | hc
        · exact .inl (List.mem_cons_of_mem _ List.mem_cons_self)
        · exact .inr hc
  · exact hfresh2.not_dead h2.onewhite

end Found

end UgmeeLua.Gc

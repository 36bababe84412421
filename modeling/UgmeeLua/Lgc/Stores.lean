import UgmeeLua.Lgc.Invariant

namespace UgmeeLua.Gc

/-! ## Stores -/

section Store

variable {g : State} {o c : GCObject} {hp : Heap}

theorem exempt_congr (hupval : ∀ uv th level, hp.upval uv = .opened th level ↔ g.heap.upval uv = .opened th level) :
    Exempt hp o ↔ Exempt g.heap o := by
  cases o <;> simp only [Exempt, hupval]

/-- References are added, to marked objects where the object that has them is black. -/
theorem Phase.store {n : Nat} {X : GCObject → Prop} (h : Phase n X g) (hn : n = 0)
    (hupval : ∀ uv th level, hp.upval uv = .opened th level ↔ g.heap.upval uv = .opened th level)
    (hin : Closed (· ∈ g.objects) hp)
    (hrefs : ∀ o ∈ g.objects, g.black o = true → ∀ c ∈ refs hp o, c ∈ refs g.heap o ∨ g.white c = false) :
    Phase n X (g.setHeap hp) := by
  subst hn
  have hnone : ∀ {n : Nat}, n + 1 ≤ 0 → False := fun hn => Nat.not_succ_le_zero _ hn
  refine ⟨hin, fun o ho hb hp hX c hc => ?_, fun o ho hw => ?_, h.notblack, fun o ho hb hex => ?_, h.listed, h.nodup,
    fun hn => (hnone hn).elim, fun hn => (hnone hn).elim, fun hn => (hnone hn).elim, fun hn => (hnone hn).elim⟩
  · rcases hrefs o ho hb c hc with hold | hw
    · exact h.black o ho hb hp hX c hold
    · exact hw
  · exact (h.settled o ho hw).imp id (fun _ hu _ => .inr hu)
      (fun _ _ hex => .inr ((exempt_congr hupval).mpr hex)) .inr
  · exact h.exempt o ho hb ((exempt_congr hupval).mp hex)

/-- A living object gets references to living ones, and to marked ones where it is black in the mark phase. -/
theorem Inv.store (h : Inv g)
    (hupval : ∀ uv th level, hp.upval uv = .opened th level ↔ g.heap.upval uv = .opened th level)
    (hopen : ∀ th, (hp.thread th).openupval = (g.heap.thread th).openupval)
    (hrefs : ∀ o ∈ g.objects, ¬ Dead g o → ∀ c ∈ refs hp o, c ∈ refs g.heap o ∨
      (c ∈ g.objects ∧ ¬ Dead g c ∧ (g.gcstate = .GCSpropagate → g.black o = true → g.white c = false))) :
    Inv (g.setHeap hp) := by
  have hlive : ∀ o ∈ g.objects, ¬ Dead g o → ∀ c ∈ refs hp o, c ∈ g.objects ∧ ¬ Dead g c := by
    intro o ho hd c hc
    rcases hrefs o ho hd c hc with hold | ⟨hin, hdc, -⟩
    · exact h.live o ho hd c hold
    · exact ⟨hin, hdc⟩
  refine ⟨⟨h.lists.nodup, fun o ho => ?_, fun uv huv => ?_, fun th hth => ?_, h.lists.opened, h.lists.onewhite,
    h.lists.fixed, h.lists.tmudata⟩, h.colour, hlive, h.roots, h.finalized, h.resting, fun hs => ?_, h.sweepstring, fun hs => ?_⟩
  · have hold := h.lists.rootgc o ho
    cases o with
    | upval uv =>
      obtain ⟨v, hv⟩ := hold
      cases hnew : hp.upval uv with
      | closed w => exact ⟨w, hnew⟩
      | opened th level =>
        rw [(hupval uv th level).mp hnew] at hv
        cases hv
    | string ts => exact hold
    | userdata u => exact hold
    | function cl => trivial
    | table t => trivial
    | thread th => trivial
    | proto p => trivial
  · obtain ⟨th, level, hold, hth, hmem⟩ := h.lists.uvhead uv huv
    exact ⟨th, level, (hupval uv th level).mpr hold, hth, (hopen th).symm ▸ hmem⟩
  · obtain ⟨hnodup, hall⟩ := h.lists.openupval th hth
    change ((hp.thread th).openupval).Nodup ∧ ∀ uv ∈ (hp.thread th).openupval, _
    rw [hopen th]
    refine ⟨hnodup, fun uv huv => ?_⟩
    obtain ⟨hin, level, hold⟩ := hall uv huv
    exact ⟨hin, level, (hupval uv th level).mpr hold⟩
  · have hm := h.marks hs
    refine ⟨hm.alive, hm.phase.store rfl hupval (fun o ho c hc => (hlive o ho (hm.alive o ho) c hc).1)
      fun o ho hb c hc => ?_, hm.main, hm.registry⟩
    rcases hrefs o ho (hm.alive o ho) c hc with hold | ⟨-, -, hw⟩
    · exact .inl hold
    · exact .inr (hw hs hb)
  · have hw := h.sweeps hs
    exact ⟨hw.strings, hw.cursor, hw.fresh, fun uv huv th level hup => hw.upvals uv huv th level
      ((hupval uv th level).mp hup)⟩

end Store

/-! ## Changes of colour -/

section Colour

variable {g g' : State} {o p c : GCObject} {m : BitVec 8}

/-- One object gets another mark, and the lists of gray objects may change. -/
structure Remarked (o : GCObject) (m : BitVec 8) (g g' : State) : Prop where
  same : g' = { g with marked := Function.update g.marked o m, gray := g'.gray, grayagain := g'.grayagain,
                       weak := g'.weak }
  fresh : Fresh g o → isfresh g.currentwhite m
  dead : isfresh (otherwhite g.currentwhite) m → Dead g o
  colour : isfresh g.currentwhite m ∨ isfresh (otherwhite g.currentwhite) m ∨ iswhite m = false
  black : isblack m = true → g.black o = true
  fixed : testbit m FIXEDBIT = testbit (g.marked o) FIXEDBIT ∨ ∃ ts, o = .string ts
  finalized : isfinalized (g.marked o) = true → (∃ u, o = .userdata u) → isfinalized m = true

section Remarked

variable (h : Remarked o m g g')

include h

theorem Remarked.self : g'.marked o = m := by
  rw [h.same]
  exact Function.update_self ..

theorem Remarked.other (hne : c ≠ o) : g'.marked c = g.marked c := by
  rw [h.same]
  exact Function.update_of_ne hne ..

theorem Remarked.currentwhite : g'.currentwhite = g.currentwhite := by rw [h.same]

theorem Remarked.keeps_fresh (hf : Fresh g c) : Fresh g' c := by
  rw [Fresh, h.currentwhite]
  by_cases hc : c = o
  · rw [hc, h.self]
    exact h.fresh (hc ▸ hf)
  · rw [h.other hc]
    exact hf

theorem Remarked.was_dead (hd : Dead g' c) : Dead g c := by
  rw [Dead, h.currentwhite] at hd
  by_cases hc : c = o
  · rw [hc, h.self] at hd
    exact hc ▸ h.dead hd
  · rw [h.other hc] at hd
    exact hd

theorem Remarked.objects : g'.objects = g.objects := by
  rw [h.same]
  rfl

end Remarked

/-- Where an object comes back to life, what it refers to lives. -/
theorem Inv.remark (h : Inv g) (hr : Remarked o m g g')
    (hrefs : Dead g o → ∀ c ∈ refs g.heap o, c ∈ g.objects ∧ ¬ Dead g c)
    (hmarks : g.gcstate = .GCSpropagate → Marks g') : Inv g' := by
  have hheap : g'.heap = g.heap := by rw [hr.same]
  have hudata : g'.udata = g.udata := by rw [hr.same]
  have htm : g'.tmudata = g.tmudata := by rw [hr.same]
  have hstate : g'.gcstate = g.gcstate := by rw [hr.same]
  have hunswept : g'.unswept = g.unswept := by
    rw [hr.same]
    rfl
  have hfinalized : ∀ u, isfinalized (g.marked (.userdata u)) = true → isfinalized (g'.marked (.userdata u)) = true := by
    intro u hu
    by_cases huo : GCObject.userdata u = o
    · rw [huo] at hu ⊢
      rw [hr.self]
      exact hr.finalized hu ⟨u, huo.symm⟩
    · rwa [hr.other huo]
  refine ⟨⟨?_, ?_, ?_, ?_, ?_, ?_, ?_, ?_⟩, ?_, ?_, ?_, ?_, ?_, ?_, ?_, ?_⟩
  · rw [hr.objects]
    exact h.lists.nodup
  · rw [hr.same]
    exact h.lists.rootgc
  · rw [hr.same]
    exact h.lists.uvhead
  · rw [hr.same]
    exact h.lists.openupval
  · have huvhead : g'.uvhead = g.uvhead := by rw [hr.same]
    rw [huvhead]
    intro uv huv
    have hnot := h.lists.opened uv huv
    by_cases huo : GCObject.upval uv = o
    · rw [huo] at hnot ⊢
      refine eq_false_of_ne_true fun hb => ?_
      rw [State.black, hr.self] at hb
      rw [hr.black hb] at hnot
      cases hnot
    · rw [State.black, hr.other huo]
      exact hnot
  · rw [hr.currentwhite]
    exact h.lists.onewhite
  · have hmain : g'.mainthread = g.mainthread := by rw [hr.same]
    rw [hmain, hr.objects]
    intro c hc hfix
    by_cases hco : c = o
    · subst hco
      rcases hr.fixed with hsame | hstring
      · rw [hr.self, hsame] at hfix
        exact h.lists.fixed c hc hfix
      · exact .inl hstring
    · rw [hr.other hco] at hfix
      exact h.lists.fixed c hc hfix
  · rw [htm]
    exact fun u hu => hfinalized u (h.lists.tmudata u hu)
  · rw [hr.objects]
    intro c hc
    by_cases hco : c = o
    · rw [Fresh, Dead, State.white, hr.currentwhite, hco, hr.self]
      exact hr.colour
    · rw [Fresh, Dead, State.white, hr.currentwhite, hr.other hco]
      exact h.colour c hc
  · rw [hr.objects, hheap]
    intro x hx hd c hc
    have hlive : c ∈ g.objects ∧ ¬ Dead g c := by
      by_cases hdead : Dead g x
      · by_cases hxo : x = o
        · exact hrefs (hxo ▸ hdead) c (hxo ▸ hc)
        · rw [Dead, hr.currentwhite, hr.other hxo] at hd
          exact absurd hdead hd
      · exact h.live x hx hdead c hc
    exact ⟨hlive.1, fun hd' => hlive.2 (hr.was_dead hd')⟩
  · have hroots : g'.roots = g.roots := by
      rw [hr.same]
      rfl
    rw [hroots, hr.objects]
    exact fun c hc => ⟨(h.roots c hc).1, fun hd => (h.roots c hc).2 (hr.was_dead hd)⟩
  · rw [hudata]
    exact fun u hu hd => hfinalized u (h.finalized u hu (hr.was_dead hd))
  · rw [hstate, hr.objects]
    intro hs c hc
    rw [Pending, htm]
    exact (h.resting hs c hc).imp_left hr.keeps_fresh
  · rw [hstate]
    exact hmarks
  · rw [hstate, hr.same]
    intro hs
    obtain ⟨hcursor, hall⟩ := h.sweepstring hs
    refine ⟨hcursor, fun i hi ts hts => ?_⟩
    rw [← hr.same]
    exact hr.keeps_fresh (hall i hi ts hts)
  · rw [hstate]
    intro hs
    have hw := h.sweeps hs
    refine ⟨?_, ?_, ?_, ?_⟩
    · have hstrt : g'.strt = g.strt := by rw [hr.same]
      rw [hstrt]
      exact fun ts hts => hr.keeps_fresh (hw.strings ts hts)
    · rw [hr.same]
      exact hw.cursor
    · have hmain : g'.mainlist = g.mainlist := by
        rw [hr.same]
        rfl
      rw [hmain, hunswept]
      exact fun c hc hout => hr.keeps_fresh (hw.fresh c hc hout)
    · have huvhead : g'.uvhead = g.uvhead := by rw [hr.same]
      rw [huvhead, hheap, hunswept]
      exact fun uv huv th level hup hout => hr.keeps_fresh (hw.upvals uv huv th level hup hout)

/-- The mark phase begins, or goes on. -/
theorem Inv.marking (h : Inv g) (hnot : ∀ c ∈ g.objects, ¬ Dead g c) (hp : Phase 0 Nowhere g')
    (hm : Marches { g with gcstate := .GCSpropagate } g') (hmainthread : g'.white (.thread g.mainthread) = false)
    (hregistry : NonWhite g' (gcvalues [g.registry])) : Inv g' := by
  have hobjects : g'.objects = g.objects := hm.objects
  have hwhite : g'.currentwhite = g.currentwhite := by rw [hm.same]
  have hstate : g'.gcstate = .GCSpropagate := by rw [hm.same]
  have halive : ∀ c ∈ g.objects, ¬ Dead g' c := fun c hc hd => by
    have hold : g'.marked c = g.marked c := hm.still c (hd.white (hwhite ▸ h.onewhite))
    rw [Dead, hwhite, hold] at hd
    exact hnot c hc hd
  have hnone : ∀ {s : GCState}, s ≠ .GCSpropagate → g'.gcstate ≠ s := fun hne heq => hne (heq ▸ hstate)
  refine ⟨⟨?_, ?_, ?_, ?_, ?_, ?_, ?_, ?_⟩, ?_, ?_, ?_, ?_, ?_, fun _ => ⟨?_, hp, ?_, ?_⟩,
    fun hs' => absurd hs' (hnone (by simp)), fun hs' => absurd hs' (hnone (by simp))⟩
  · rw [hobjects]
    exact h.lists.nodup
  · have hroot : g'.rootgc = g.rootgc := by rw [hm.same]
    rw [hroot]
    intro c hc
    have hold := h.lists.rootgc c hc
    cases c with
    | upval uv =>
      rw [Listed, hm.trims.upval]
      exact hold
    | string ts => exact hold
    | userdata u => exact hold
    | function cl => trivial
    | table t => trivial
    | thread th => trivial
    | proto q => trivial
  · have huvhead : g'.uvhead = g.uvhead := by rw [hm.same]
    rw [huvhead, hm.trims.upval, hobjects]
    intro uv huv
    obtain ⟨th, level, hopen, hth, hmem⟩ := h.lists.uvhead uv huv
    exact ⟨th, level, hopen, hth, (hm.trims.openupval th).symm ▸ hmem⟩
  · have huvhead : g'.uvhead = g.uvhead := by rw [hm.same]
    rw [huvhead, hm.trims.upval, hobjects]
    intro th hth
    rw [hm.trims.openupval th]
    exact h.lists.openupval th hth
  · have huvhead : g'.uvhead = g.uvhead := by rw [hm.same]
    rw [huvhead]
    intro uv huv
    obtain ⟨th, level, hopen, -⟩ := h.lists.uvhead uv huv
    refine eq_false_of_ne_true fun hb => hp.exempt (.upval uv) ?_ hb ⟨th, level, hm.trims.upval ▸ hopen⟩
    rw [hobjects]
    exact mem_objects_iff.mpr (.inr (.inr (.inr (.inl ⟨uv, huv, rfl⟩))))
  · rw [hwhite]
    exact h.lists.onewhite
  · have hmain : g'.mainthread = g.mainthread := by rw [hm.same]
    rw [hmain, hobjects]
    intro c hc hfix
    rw [hm.fixed] at hfix
    exact h.lists.fixed c hc hfix
  · have htm : g'.tmudata = g.tmudata := by rw [hm.same]
    rw [htm]
    intro u hu
    rw [hm.finalized]
    exact h.lists.tmudata u hu
  · rw [hobjects]
    intro c hc
    cases hw : g'.white c with
    | false => exact .inr (.inr rfl)
    | true =>
      rw [Fresh, hwhite, hm.still c hw]
      exact .inl (h.fresh_of_white hc (hnot c hc) (hm.white hw))
  · rw [hobjects]
    intro x hx _ c hc
    have hin := (h.live x hx (hnot x hx) c (hm.trims.refs x c hc)).1
    exact ⟨hin, halive c hin⟩
  · have hroots : g'.roots = g.roots := by
      rw [hm.same]
      rfl
    rw [hroots, hobjects]
    exact fun c hc => ⟨(h.roots c hc).1, halive c (h.roots c hc).1⟩
  · intro u hu hd
    refine absurd hd (halive _ ?_)
    rw [← hobjects]
    exact mem_objects_iff.mpr (.inr (.inr (.inr (.inr ⟨u, .inl hu, rfl⟩))))
  · rintro (hs' | hs')
    · exact absurd hs' (hnone (by simp))
    · exact absurd hs' (hnone (by simp))
  · rw [hobjects]
    exact halive
  · have hmain : g'.mainthread = g.mainthread := by rw [hm.same]
    rw [hmain]
    exact hmainthread
  · have hsame : g'.registry = g.registry := by rw [hm.same]
    rw [hsame]
    exact hregistry

/-- The mark phase goes on. -/
theorem Inv.marches (h : Inv g) (hs : g.gcstate = .GCSpropagate) (hp : Phase 0 Nowhere g') (hm : Marches g g') :
    Inv g' := by
  have hmarks := h.marks hs
  have hsame : { g with gcstate := .GCSpropagate } = g := by rw [← hs]
  refine h.marking hmarks.alive hp ?_ (hm.nonwhite _ hmarks.main) (NonWhite.marches hmarks.registry hm)
  rw [hsame]
  exact hm

end Colour

/-! ## Barriers -/

section Barrier

variable {g g' g'' : State} {o p c : GCObject} {l l' : List GCObject}

/-- A black table is gray again. -/
theorem Phase.barrierback {t : Nat} (h : Phase 0 Nowhere g) (hin : .table t ∈ g.objects)
    (hn : g.white (.table t) = false) (hb : g.black (.table t) = true) :
    Phase 0 Nowhere (luaCBarrierback t g) := by
  have hout : .table t ∉ g.grays := fun hl => by
    have hgray := (h.listed _ hl).2.2.2 id
    rw [hgray] at hb
    cases hb
  have hperm : (g.gray ++ (.table t :: g.grayagain ++ g.weak.map GCObject.table)).Perm (.table t :: g.grays) :=
    List.perm_middle
  have h0 := h.weaken (.table t)
  have hlist : Phase 0 (· = .table t) { g with grayagain := .table t :: g.grayagain } := by
    refine { h0 with
      settled := fun c hc hw => ?_
      listed := fun c hc => ?_
      nodup := hperm.nodup_iff.mpr (List.nodup_cons.mpr ⟨hout, h.nodup⟩)
      again := fun hn => absurd hn (by decide) }
    · exact (h0.settled c hc hw).imp id (fun _ hu _ => .inr hu) (fun _ _ hex => .inr hex) fun hl =>
        .inr (hperm.mem_iff.mpr (List.mem_cons_of_mem _ hl))
    · rcases List.mem_cons.mp (hperm.mem_iff.mp hc) with heq | hold
      · rw [heq]
        exact ⟨hin, hn, trivial, fun hne => absurd rfl hne⟩
      · exact h0.listed c hold
  have hgray := hlist.blacken (f := black2gray) id trivial hn (iswhite_black2gray.trans hn)
    (.inr (hperm.mem_iff.mpr List.mem_cons_self))
  have hblack : (luaCBarrierback t g).black (.table t) = false :=
    (congrArg isblack marked_mark_self).trans isblack_black2gray
  have hsame : ({ g with grayagain := .table t :: g.grayagain } : State).mark (.table t) black2gray =
      luaCBarrierback t g := rfl
  rw [hsame] at hgray
  have hnone : ∀ {n : Nat}, n + 1 ≤ 0 → False := fun hn => Nat.not_succ_le_zero _ hn
  refine { hgray with
    black := fun c hc hbc hpend _ => ?_
    listed := fun c hc => ?_
    weak := fun hn => (hnone hn).elim
    again := fun hn => (hnone hn).elim }
  · by_cases heq : c = .table t
    · rw [heq, hblack] at hbc
      cases hbc
    · exact hgray.black c hc hbc hpend heq
  · obtain ⟨hc, hw, hkind, hbc⟩ := hgray.listed c hc
    refine ⟨hc, hw, hkind, fun _ => ?_⟩
    by_cases heq : c = .table t
    · rw [heq]
      exact hblack
    · exact hbc heq

/-- A black object stays out of the lists, or its colour is not that of new ones. -/
theorem Inv.barrierback {t : Nat} (h : Inv g) (hin : .table t ∈ g.objects) (hb : g.black (.table t) = true) :
    Inv (luaCBarrierback t g) := by
  have hn := h.not_white_of_black hin hb
  have hgray : iswhite (black2gray (g.marked (.table t))) = false := iswhite_black2gray.trans hn
  have hr : Remarked (.table t) (black2gray (g.marked (.table t))) g (luaCBarrierback t g) := by
    refine ⟨rfl, fun hf => ?_, fun hd => ?_, .inr (.inr hgray), fun _ => hb,
      .inl fixed_black2gray, fun _ hu => ?_⟩
    · rw [hf.notblack h.onewhite] at hb
      cases hb
    · rw [isfresh.white hd h.onewhite.otherwhite] at hgray
      cases hgray
    · obtain ⟨u, hu⟩ := hu
      cases hu
  refine h.remark hr (fun hd => absurd (hd.white h.onewhite) (by rw [hn]; decide)) fun hs => ?_
  have hm := h.marks hs
  refine ⟨fun c hc hd => hm.alive c (hr.objects ▸ hc) (hr.was_dead hd), hm.phase.barrierback hin hn hb, ?_, ?_⟩
  · exact (white_mark_other fun heq => by cases heq).trans hm.main
  · have hwhite : (luaCBarrierback t g).white = g.white := white_mark_eq iswhite_black2gray
    rw [NonWhite, hwhite]
    exact hm.registry

theorem remarked_whiten (h : OneWhite g.currentwhite) (o : GCObject) :
    Remarked o (makewhite g.currentwhite (g.marked o)) g (g.whiten o) :=
  ⟨rfl, fun _ => isfresh_makewhite h, fun hd => absurd hd ((isfresh_makewhite h).not_other h),
    .inl (isfresh_makewhite h), fun hb => absurd hb (by rw [(isfresh_makewhite h).notblack h]; decide),
    .inl (fixed_makewhite _), fun hfin _ => by rwa [isfinalized_makewhite]⟩

/-- Outside of the mark phase a living object may become white. -/
theorem Inv.whiten (h : Inv g) (hd : ¬ Dead g o) (hs : g.gcstate ≠ .GCSpropagate) : Inv (g.whiten o) :=
  h.remark (remarked_whiten h.onewhite o) (fun hdead => absurd hdead hd) fun hs' => absurd hs' hs

/-- What a barrier does for an object that is to refer to others: in the mark phase they are marked, or the
object is not black. -/
structure Barred (p : GCObject) (l : List GCObject) (g g' : State) : Prop where
  inv : Inv g'
  heap : g'.heap = g.heap
  objects : g'.objects = g.objects
  gcstate : g'.gcstate = g.gcstate
  alive : ∀ c ∈ g.objects, ¬ Dead g c → ¬ Dead g' c
  nonwhite : g.gcstate = .GCSpropagate → ∀ c, g.white c = false → g'.white c = false
  black : g'.black p = true → g.black p = true
  shield : g.gcstate = .GCSpropagate → g'.black p = true → NonWhite g' l

theorem Barred.trans (h : Barred p l g g') (h' : Barred p l' g' g'') : Barred p (l ++ l') g g'' := by
  refine ⟨h'.inv, h'.heap.trans h.heap, h'.objects.trans h.objects, h'.gcstate.trans h.gcstate,
    fun c hc hd => h'.alive c (h.objects ▸ hc) (h.alive c hc hd),
    fun hs c hw => h'.nonwhite (h.gcstate.trans hs) c (h.nonwhite hs c hw), fun hb => h.black (h'.black hb),
    fun hs hb c hc => ?_⟩
  rcases List.mem_append.mp hc with hc | hc
  · exact h'.nonwhite (h.gcstate.trans hs) c (h.shield hs (h'.black hb) c hc)
  · exact h'.shield (h.gcstate.trans hs) hb c hc

/-- No barrier is needed. -/
theorem Inv.unbarred (h : Inv g) (hneed : g.black p = true → NonWhite g l) : Barred p l g g :=
  ⟨h, rfl, rfl, rfl, fun _ _ hd => hd, fun _ _ hw => hw, id, fun _ => hneed⟩

theorem not_guard (hguard : ¬ (g.white o && g.black p) = true) (hb : g.black p = true) : NonWhite g [o] := by
  intro c hc
  rw [List.mem_singleton.mp hc]
  cases hw : g.white o with
  | false => rfl
  | true => simp [hw, hb] at hguard

theorem luaCObjbarrier_barred (h : Inv g) (hp : p ∈ g.objects) (ho : o ∈ g.objects) :
    Barred p [o] g (luaCObjbarrier p o g) := by
  rw [luaCObjbarrier]
  split_ifs with hguard
  · obtain ⟨hw, hb⟩ := Bool.and_eq_true_iff.mp hguard
    have hn := h.not_white_of_black hp hb
    rw [luaCBarrierf]
    split_ifs with hs
    · have hm := h.marks hs
      have hmarks : MarksRefs (· ∈ g.objects) g (reallymarkobject o g) [o] := by
        have hobject := marks_object (g := g) hm.phase.closed ho
        rwa [markobject, if_pos hw] at hobject
      have hinv := h.marches hs (hm.phase.marked hmarks.1) hmarks.1.marches
      refine ⟨hinv, hmarks.1.heap, hmarks.1.objects, ?_, fun c hc _ => ?_, fun _ c => hmarks.1.nonwhite,
        fun _ => hb, fun _ _ => hmarks.2⟩
      · rw [hmarks.1.same]
      · refine (hinv.marks ?_).alive c (hmarks.1.objects ▸ hc)
        rw [hmarks.1.same]
        exact hs
    · have hr := remarked_whiten h.onewhite p
      exact ⟨h.whiten (not_dead_of_not_white hn h.onewhite) hs, rfl, rfl, rfl,
        fun c _ hd hd' => hd (hr.was_dead hd'), fun hs' => absurd hs' hs, fun _ => hb, fun hs' => absurd hs' hs⟩
  · exact h.unbarred (not_guard hguard)

theorem luaCBarrier_barred {v : TValue} (h : Inv g) (hp : p ∈ g.objects) (hv : ∀ o ∈ gcvalues [v], o ∈ g.objects) :
    Barred p (gcvalues [v]) g (luaCBarrier p v g) := by
  rw [luaCBarrier]
  cases hval : v.gcvalue with
  | none =>
    refine h.unbarred fun _ o ho => ?_
    obtain ⟨w, hw, heq⟩ := mem_gcvalues.mp ho
    rw [List.mem_singleton.mp hw, hval] at heq
    cases heq
  | some o =>
    have hone : gcvalues [v] = [o] := by rw [gcvalues, List.filterMap_cons_some hval, List.filterMap_nil]
    rw [hone] at hv ⊢
    exact luaCObjbarrier_barred h hp (hv o (List.mem_singleton_self o))

theorem luaCObjbarriert_barred {t : Nat} (h : Inv g) (ht : .table t ∈ g.objects) :
    Barred (.table t) [o] g (luaCObjbarriert t o g) := by
  rw [luaCObjbarriert]
  split_ifs with hguard
  · obtain ⟨hw, hb⟩ := Bool.and_eq_true_iff.mp hguard
    have hn := h.not_white_of_black ht hb
    have hblack : (luaCBarrierback t g).black (.table t) = false :=
      (congrArg isblack marked_mark_self).trans isblack_black2gray
    have hwhite : (luaCBarrierback t g).white = g.white := white_mark_eq iswhite_black2gray
    refine ⟨h.barrierback ht hb, rfl, rfl, rfl, fun c _ hd hd' => hd ?_, fun _ c hc => ?_, fun _ => hb, fun _ hb' => ?_⟩
    · by_cases hc : c = .table t
      · have hdead := hd'.white h.onewhite
        rw [hwhite, hc, hn] at hdead
        cases hdead
      · rwa [Dead, show (luaCBarrierback t g).marked c = g.marked c from marked_mark_other hc] at hd'
    · rw [hwhite]
      exact hc
    · rw [hblack] at hb'
      cases hb'
  · exact h.unbarred (not_guard hguard)

theorem luaCBarriert_barred {t : Nat} {v : TValue} (h : Inv g) (ht : .table t ∈ g.objects) :
    Barred (.table t) (gcvalues [v]) g (luaCBarriert t v g) := by
  rw [luaCBarriert]
  cases hval : v.gcvalue with
  | none =>
    refine h.unbarred fun _ o ho => ?_
    obtain ⟨w, hw, heq⟩ := mem_gcvalues.mp ho
    rw [List.mem_singleton.mp hw, hval] at heq
    cases heq
  | some o =>
    have hone : gcvalues [v] = [o] := by rw [gcvalues, List.filterMap_cons_some hval, List.filterMap_nil]
    rw [hone]
    exact luaCObjbarriert_barred h ht

/-- A store behind its barrier. What is never black needs none. -/
theorem Barred.store {hp : Heap} (h : Barred p l g g')
    (hupval : ∀ uv th level, hp.upval uv = .opened th level ↔ g.heap.upval uv = .opened th level)
    (hopen : ∀ th, (hp.thread th).openupval = (g.heap.thread th).openupval)
    (hrefs : ∀ o ∈ g.objects, ∀ c ∈ refs hp o, c ∈ refs g.heap o ∨
      (c ∈ g.objects ∧ ¬ Dead g c ∧ ((o = p ∧ c ∈ l) ∨ Exempt g.heap o))) :
    Inv (g'.setHeap hp) := by
  have hheap := h.heap
  refine h.inv.store (hheap ▸ hupval) (hheap ▸ hopen) fun o ho _ c hc => ?_
  rw [h.objects] at ho
  rw [hheap]
  rcases hrefs o ho c hc with hold | ⟨hin, hd, hcase⟩
  · exact .inl hold
  · refine .inr ⟨h.objects ▸ hin, h.alive c hin hd, fun hs hb => ?_⟩
    rcases hcase with ⟨rfl, hcl⟩ | hex
    · exact h.shield (h.gcstate.symm.trans hs) hb c hcl
    · refine absurd ?_ ((h.inv.marks hs).phase.exempt o (h.objects ▸ ho) hb)
      rwa [hheap]

end Barrier

end UgmeeLua.Gc

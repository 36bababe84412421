import UgmeeLua.Lgc.Actions

namespace UgmeeLua.Gc

/-! ## New objects -/

section Made

variable {g g' : State} {o c : GCObject}

/-- There is one more object, behind nothing that was swept; what else there is stays as it was. -/
structure Made (o : GCObject) (g g' : State) : Prop where
  same : g' = { g with heap := g'.heap, marked := g'.marked, rootgc := g'.rootgc, udata := g'.udata,
                       strt := g'.strt, uvhead := g'.uvhead }
  marked : g'.marked = Function.update g.marked o (luaCWhite g.currentwhite)
  new : o ∉ g.objects
  objects : g'.objects.Perm (o :: g.objects)
  upval : ∀ uv, .upval uv ∈ g.objects → g'.heap.upval uv = g.heap.upval uv
  refs : ∀ x ∈ g.objects, refs g'.heap x = refs g.heap x
  alive : ∀ c ∈ Gc.refs g'.heap o, Alive g c
  rootgc : ∀ x ∈ g'.rootgc, Listed g'.heap x
  uvhead : ∀ uv ∈ g'.uvhead, ∃ th level, g'.heap.upval uv = .opened th level ∧ .thread th ∈ g'.objects ∧
    uv ∈ (g'.heap.thread th).openupval
  openupval : ∀ th, .thread th ∈ g'.objects → (g'.heap.thread th).openupval.Nodup ∧
    ∀ uv ∈ (g'.heap.thread th).openupval, uv ∈ g'.uvhead ∧ ∃ level, g'.heap.upval uv = .opened th level
  strings : ∀ i, ∀ ts ∈ g'.strt.getD i [], .string ts = o ∨ ts ∈ g.strt.getD i []
  opened : ∀ uv ∈ g'.uvhead, .upval uv = o ∨ uv ∈ g.uvhead
  mainlist : ∀ x ∈ g'.mainlist, x = o ∨ x ∈ g.mainlist
  kept : ∀ x ∈ g.mainlist, x ∈ g'.mainlist
  unswept : g.gcstate = .GCSsweep → ∀ x ∈ g.unswept, x ∈ g'.unswept

theorem mem_udata_iff (h : Lists g) {u : Nat} : .userdata u ∈ g.mainlist ↔ u ∈ g.udata := by
  simp only [State.mainlist, List.mem_append, List.mem_cons, reduceCtorEq, List.mem_map, GCObject.userdata.injEq,
    exists_eq_right, false_or, or_iff_right_iff_imp]
  exact fun hu => (h.rootgc _ hu).elim

theorem mem_of_strt {i ts : Nat} (h : ts ∈ g.strt.getD i []) : GCObject.string ts ∈ g.objects := by
  refine mem_objects_iff.mpr (.inr (.inr (.inl ⟨ts, ?_, rfl⟩)))
  rw [List.getD_eq_getElem?_getD] at h
  cases hi : g.strt[i]? with
  | none =>
    rw [hi] at h
    cases h
  | some l =>
    rw [hi] at h
    exact List.mem_flatten_of_mem (List.mem_of_getElem? hi) h

section

variable (h : Made o g g')

include h

theorem Made.currentwhite : g'.currentwhite = g.currentwhite := by rw [h.same]

theorem Made.mem : c ∈ g'.objects ↔ c = o ∨ c ∈ g.objects := by
  rw [h.objects.mem_iff, List.mem_cons]

theorem Made.ne (hc : c ∈ g.objects) : c ≠ o := fun heq => h.new (heq ▸ hc)

theorem Made.other (hc : c ∈ g.objects) : g'.marked c = g.marked c := by
  rw [h.marked]
  exact Function.update_of_ne (h.ne hc) ..

theorem Made.fresh (hw : OneWhite g.currentwhite) : Fresh g' o := by
  rw [Fresh, h.currentwhite, h.marked, Function.update_self]
  exact isfresh_luaCWhite hw

theorem Made.not_dead (hc : Alive g c) : ¬ Dead g' c := by
  rw [Dead, h.currentwhite, h.other hc.1]
  exact hc.2

theorem Made.keeps_alive (hc : Alive g c) : Alive g' c := ⟨h.mem.mpr (.inr hc.1), h.not_dead hc⟩

theorem Made.keeps_fresh (hc : c ∈ g.objects) (hf : Fresh g c) : Fresh g' c := by
  rw [Fresh, h.currentwhite, h.other hc]
  exact hf

theorem Made.white_other (hc : c ∈ g.objects) : g'.white c = g.white c := congrArg iswhite (h.other hc)

theorem Made.black_other (hc : c ∈ g.objects) : g'.black c = g.black c := congrArg isblack (h.other hc)

theorem Made.exempt (hc : c ∈ g.objects) : Exempt g'.heap c ↔ Exempt g.heap c := by
  cases c with
  | upval uv => rw [Exempt, Exempt, h.upval uv hc]
  | string ts => rfl
  | userdata u => rfl
  | function cl => rfl
  | table t => rfl
  | thread th => rfl
  | proto q => rfl

theorem Made.grays : g'.grays = g.grays := by
  rw [h.same]
  rfl

theorem Made.pending : Pending g' c ↔ Pending g c := by
  rw [h.same]
  rfl

theorem Made.phase (hw : OneWhite g.currentwhite) (hp : Phase 0 Nowhere g) : Phase 0 Nowhere g' := by
  have hwhite := (h.fresh hw).white (h.currentwhite ▸ hw)
  have hblack := (h.fresh hw).notblack (h.currentwhite ▸ hw)
  have hnone : ∀ {n : Nat}, n + 1 ≤ 0 → False := fun hn => Nat.not_succ_le_zero _ hn
  refine ⟨fun x hx c hc => ?_, fun x hx hb hpend _ c hc => ?_, fun x hx hn => ?_, fun x hx hw' => ?_,
    fun x hx hb => ?_, fun x hx => ?_, ?_, fun hn => (hnone hn).elim, fun hn => (hnone hn).elim,
    fun hn => (hnone hn).elim, fun hn => (hnone hn).elim⟩
  · refine h.mem.mpr (.inr ?_)
    rcases h.mem.mp hx with rfl | hx
    · exact (h.alive c hc).1
    · rw [h.refs x hx] at hc
      exact hp.closed x hx c hc
  · rcases h.mem.mp hx with rfl | hx
    · rw [hblack] at hb
      cases hb
    · rw [h.refs x hx] at hc
      rw [h.black_other hx] at hb
      rw [h.white_other (hp.closed x hx c hc)]
      exact hp.black x hx hb (fun hpend' => hpend (h.pending.mpr hpend')) id c hc
  · rcases h.mem.mp hx with rfl | hx
    · rw [hwhite] at hn
      cases hn
    · rw [h.white_other hx] at hn
      refine (hp.settled x hx hn).imp (h.black_other hx).trans (fun u hu _ => .inr ?_)
        (fun _ _ hex => .inr ((h.exempt hx).mpr hex)) fun hl => .inr (h.grays ▸ hl)
      have htm : g'.tmudata = g.tmudata := by rw [h.same]
      exact htm ▸ hu
  · rcases h.mem.mp hx with rfl | hx
    · exact hblack
    · rw [h.black_other hx]
      exact hp.notblack x hx ((h.white_other hx).symm.trans hw')
  · rcases h.mem.mp hx with rfl | hx
    · rw [hblack] at hb
      cases hb
    · rw [h.exempt hx]
      exact hp.exempt x hx ((h.black_other hx).symm.trans hb)
  · rw [h.grays] at hx
    obtain ⟨hin, hn, hkind, hb⟩ := hp.listed x hx
    exact ⟨h.mem.mpr (.inr hin), (h.white_other hin).trans hn, hkind, fun hx' => (h.black_other hin).trans (hb hx')⟩
  · rw [h.grays]
    exact hp.nodup

/-- A new object refers to living ones. -/
theorem Made.inv (hi : Inv g) : Inv g' := by
  have hw := hi.onewhite
  have hfresh := h.fresh hw
  have hnotdead := hfresh.not_dead (h.currentwhite ▸ hw)
  have hold : ∀ x ∈ g.objects, Fresh g x → Fresh g' x := fun x hx => h.keeps_fresh hx
  have hwas : ∀ x ∈ g.objects, Dead g' x → Dead g x := fun x hx hd => by
    rwa [Dead, h.currentwhite, h.other hx] at hd
  have hstate : g'.gcstate = g.gcstate := by rw [h.same]
  have hmainthread : g'.mainthread = g.mainthread := by rw [h.same]
  have htm : g'.tmudata = g.tmudata := by rw [h.same]
  have hpendin : ∀ u ∈ g.tmudata, GCObject.userdata u ∈ g.objects := fun u hu =>
    mem_objects_iff.mpr (.inr (.inr (.inr (.inr ⟨u, .inr hu, rfl⟩))))
  have hmainin : GCObject.thread g.mainthread ∈ g.objects := mem_objects_iff.mpr (.inr (.inl rfl))
  have hlists : Lists g' := by
    refine ⟨?_, h.rootgc, h.uvhead, h.openupval, fun uv huv => ?_, ?_, fun c hc hfix => ?_, ?_⟩
    · exact h.objects.nodup_iff.mpr (List.nodup_cons.mpr ⟨h.new, hi.lists.nodup⟩)
    · rcases h.opened uv huv with heq | hold'
      · rw [heq]
        exact hfresh.notblack (h.currentwhite ▸ hw)
      · rw [h.black_other (mem_objects_iff.mpr (.inr (.inr (.inr (.inl ⟨uv, hold', rfl⟩)))))]
        exact hi.lists.opened uv hold'
    · rw [h.currentwhite]
      exact hw
    · rw [hmainthread]
      rcases h.mem.mp hc with rfl | hc
      · rw [h.marked, Function.update_self, fixed_luaCWhite] at hfix
        cases hfix
      · rw [h.other hc] at hfix
        exact hi.lists.fixed c hc hfix
    · rw [htm]
      intro u hu
      rw [h.other (hpendin u hu)]
      exact hi.lists.tmudata u hu
  refine ⟨hlists, fun x hx => ?_, fun x hx hd c hc => ?_, fun x hx => ?_, fun u hu hd => ?_, fun hs x hx => ?_,
    fun hs => ?_, fun hs => ?_, fun hs => ?_⟩
  · rcases h.mem.mp hx with rfl | hx
    · exact .inl hfresh
    · rw [Fresh, Dead, State.white, h.currentwhite, h.other hx]
      exact hi.colour x hx
  · have halive : Alive g c := by
      rcases h.mem.mp hx with rfl | hx
      · exact h.alive c hc
      · rw [h.refs x hx] at hc
        refine hi.live x hx (fun hdx => hd ?_) c hc
        rwa [Dead, h.currentwhite, h.other hx]
    exact h.keeps_alive halive
  · have hroots : g'.roots = g.roots := by
      rw [h.same]
      rfl
    rw [hroots] at hx
    exact h.keeps_alive (hi.roots x hx)
  · rcases h.mainlist _ ((mem_udata_iff hlists).mpr hu) with heq | hmain
    · exact absurd (heq ▸ hd) hnotdead
    · have hin : GCObject.userdata u ∈ g.objects := List.mem_append_left _ hmain
      rw [h.other hin]
      exact hi.finalized u ((mem_udata_iff hi.lists).mp hmain) (hwas _ hin hd)
  · rw [h.pending]
    rcases h.mem.mp hx with rfl | hx
    · exact .inl hfresh
    · exact (hi.resting (hstate ▸ hs) x hx).imp_left (hold x hx)
  · have hm := hi.marks (hstate ▸ hs)
    refine ⟨fun x hx => ?_, h.phase hw hm.phase, ?_, ?_⟩
    · rcases h.mem.mp hx with rfl | hx
      · exact hnotdead
      · exact fun hd => hm.alive x hx (hwas x hx hd)
    · rw [hmainthread]
      exact (h.white_other hmainin).trans hm.main
    · have hregistry : g'.registry = g.registry := by rw [h.same]
      rw [hregistry]
      intro c hc
      refine (h.white_other ?_).trans (hm.registry c hc)
      exact (hi.roots c (State.registry_mem_roots hc)).1
  · obtain ⟨hcursor, hall⟩ := hi.sweepstring (hstate ▸ hs)
    refine ⟨?_, fun i hlt ts hts => ?_⟩
    · rw [h.same]
      exact hcursor
    · have hsweep : g'.sweepstrgc = g.sweepstrgc := by rw [h.same]
      rw [hsweep] at hlt
      rcases h.strings i ts hts with heq | hin
      · rw [heq]
        exact hfresh
      · exact hold _ (mem_of_strt hin) (hall i hlt ts hin)
  · have hsw := hi.sweeps (hstate ▸ hs)
    have hcursor : g'.sweepgc = g.sweepgc := by rw [h.same]
    refine ⟨fun ts hts => ?_, fun x hx => ?_, fun x hx hout => ?_, fun uv huv th level hup hout => ?_⟩
    · obtain ⟨l, hl, hts⟩ := List.mem_flatten.mp hts
      obtain ⟨i, hi'⟩ := List.getElem?_of_mem hl
      rcases h.strings i ts (by rw [List.getD_eq_getElem?_getD, hi']; exact hts) with heq | hin
      · rw [heq]
        exact hfresh
      · refine hold _ (mem_of_strt hin) (hsw.strings ts ?_)
        rcases mem_objects_iff.mp (mem_of_strt hin) with hr | hr | ⟨ts', hts', hr⟩ | ⟨uv, -, hr⟩ | ⟨u', -, hr⟩
        · exact (hi.lists.rootgc _ hr).elim
        · cases hr
        · cases hr
          exact hts'
        · cases hr
        · cases hr
    · rw [h.pending]
      exact (hsw.cursor x (hcursor ▸ hx)).imp_left (h.kept x)
    · rcases h.mainlist x hx with rfl | hmain
      · exact hfresh
      · exact hold x (List.mem_append_left _ hmain) (hsw.fresh x hmain fun hold' => hout (h.unswept (hstate ▸ hs) x hold'))
    · rcases h.opened uv huv with heq | hold'
      · rw [heq]
        exact hfresh
      · have hin : GCObject.upval uv ∈ g.objects :=
          mem_objects_iff.mpr (.inr (.inr (.inr (.inl ⟨uv, hold', rfl⟩))))
        rw [h.upval uv hin] at hup
        exact hold _ hin (hsw.upvals uv hold' th level hup fun ho => hout (h.unswept (hstate ▸ hs) _ ho))

end

end Made

section Links

variable {g : State} {o c : GCObject} {hp : Heap}

theorem following_cons {x : GCObject} {l : List GCObject} (h : x ≠ o) : following x (o :: l) = following x l := by
  rw [following, List.dropWhile_cons_of_pos (by simpa using h.symm), following]

theorem mem_uvhead (h : Lists g) {uv th level : Nat} (hin : .upval uv ∈ g.objects)
    (hopen : g.heap.upval uv = .opened th level) : uv ∈ g.uvhead := by
  rcases mem_objects_iff.mp hin with hr | hr | ⟨ts, -, hr⟩ | ⟨uv', huv, hr⟩ | ⟨u, -, hr⟩
  · obtain ⟨v, hv⟩ := h.rootgc _ hr
    rw [hopen] at hv
    cases hv
  · cases hr
  · cases hr
  · cases hr
    exact huv
  · cases hr

/-- The heap differs in an object that is no object yet. -/
structure Differs (o : GCObject) (g : State) (hp : Heap) : Prop where
  new : o ∉ g.objects
  upval : ∀ uv, .upval uv ≠ o → hp.upval uv = g.heap.upval uv
  refs : ∀ x ∈ g.objects, refs hp x = refs g.heap x
  alive : ∀ c ∈ Gc.refs hp o, Alive g c
  openupval : ∀ th, .thread th ≠ o → (hp.thread th).openupval = (g.heap.thread th).openupval
  none : ∀ th, .thread th = o → (hp.thread th).openupval = []

/-- An object at the beginning of `rootgc`. -/
theorem mem_unswept_link {g' : State} {x : GCObject} (hne : ∀ y, g.sweepgc = some y → y ≠ o)
    (hroot : g'.rootgc = o :: g.rootgc) (hmain : g'.mainthread = g.mainthread) (hudata : g'.udata = g.udata)
    (hsweep : g'.sweepgc = g.sweepgc) (hx : x ∈ g.unswept) : x ∈ g'.unswept := by
  have hlist : g'.mainlist = o :: g.mainlist := by
    rw [State.mainlist, hroot, hmain, hudata]
    rfl
  rw [State.unswept] at hx
  rw [State.unswept, hlist, hsweep]
  cases hcur : g.sweepgc with
  | none =>
    rw [hcur] at hx
    exact List.mem_cons_of_mem _ hx
  | some y =>
    rw [hcur] at hx
    simp only at hx ⊢
    have hy := hne y hcur
    by_cases hin : y ∈ g.mainlist
    · rw [if_pos hin] at hx
      rw [if_pos (List.mem_cons_of_mem _ hin), following_cons hy]
      exact hx
    · rw [if_neg hin] at hx
      rw [if_neg (by rw [List.mem_cons]; exact not_or.mpr ⟨hy, hin⟩), hudata]
      exact hx

/-- `luaC_link`. -/
theorem Differs.link (h : Differs o g hp) (hl : Listed hp o) (hi : Inv g) : Made o g (luaCLink o (g.setHeap hp)) := by
  have hne : ∀ {x}, x ∈ g.objects → x ≠ o := fun hx heq => h.new (heq ▸ hx)
  have hupval : ∀ uv, .upval uv ∈ g.objects → hp.upval uv = g.heap.upval uv := fun uv huv => h.upval uv (hne huv)
  refine ⟨rfl, rfl, h.new, List.Perm.refl _, hupval, h.refs, h.alive, fun x hx => ?_, fun uv huv => ?_, fun th hth => ?_,
    fun i ts hts => .inr hts, fun uv huv => .inr huv, fun x hx => List.mem_cons.mp hx,
    fun x hx => List.mem_cons_of_mem _ hx, fun hs x hx => ?_⟩
  · rcases List.mem_cons.mp hx with rfl | hx
    · exact hl
    · have hold := hi.lists.rootgc x hx
      cases x with
      | upval uv =>
        obtain ⟨v, hv⟩ := hold
        exact ⟨v, (hupval uv (List.mem_append_left _ (List.mem_append_left _ hx))).trans hv⟩
      | string ts => exact hold
      | userdata u => exact hold
      | function cl => trivial
      | table t => trivial
      | thread th => trivial
      | proto q => trivial
  · obtain ⟨th, level, hopen, hth, hmem⟩ := hi.lists.uvhead uv huv
    have hin : GCObject.upval uv ∈ g.objects := mem_objects_iff.mpr (.inr (.inr (.inr (.inl ⟨uv, huv, rfl⟩))))
    exact ⟨th, level, (hupval uv hin).trans hopen, List.mem_cons_of_mem _ hth, (h.openupval th (hne hth)).symm ▸ hmem⟩
  · change (hp.thread th).openupval.Nodup ∧ ∀ uv ∈ (hp.thread th).openupval, _
    rcases List.mem_cons.mp hth with heq | hth
    · rw [h.none th heq]
      exact ⟨List.nodup_nil, fun uv huv => (List.not_mem_nil huv).elim⟩
    · rw [h.openupval th (hne hth)]
      obtain ⟨hnodup, hall⟩ := hi.lists.openupval th hth
      refine ⟨hnodup, fun uv huv => ?_⟩
      obtain ⟨hin, level, hopen⟩ := hall uv huv
      have hobject : GCObject.upval uv ∈ g.objects := mem_objects_iff.mpr (.inr (.inr (.inr (.inl ⟨uv, hin, rfl⟩))))
      exact ⟨hin, level, (hupval uv hobject).trans hopen⟩
  · have hcursor : ∀ y, g.sweepgc = some y → y ≠ o := ?_
    · exact mem_unswept_link hcursor rfl rfl rfl rfl hx
    intro y hcur
    rcases (hi.sweeps hs).cursor y hcur with hin | ⟨u, hu, rfl⟩
    · exact hne (List.mem_append_left _ hin)
    · exact hne (mem_objects_iff.mpr (.inr (.inr (.inr (.inr ⟨u, .inr hu, rfl⟩)))))

/-- An object that is put into a list somewhere is behind every place, or the place is before it. -/
theorem mem_following_insert {x y : GCObject} {l l' : List GCObject} (hne : y ≠ o) (h : x ∈ following y (l ++ l')) :
    x ∈ following y (l ++ o :: l') := by
  induction l with
  | nil => rwa [List.nil_append, following_cons hne]
  | cons a l ih =>
    rw [List.cons_append] at h ⊢
    by_cases ha : y = a
    · subst ha
      rw [following, List.dropWhile_cons_of_neg (by simp)] at h ⊢
      rcases List.mem_append.mp h with h | h
      · exact List.mem_append_left _ h
      · exact List.mem_append_right _ (List.mem_cons_of_mem _ h)
    · rw [following_cons ha] at h ⊢
      exact ih h

theorem mainlist_eq (g : State) :
    g.mainlist = (g.rootgc ++ [.thread g.mainthread]) ++ g.udata.map .userdata := by
  rw [State.mainlist, List.append_assoc]
  rfl

theorem mem_unswept_insert {g' : State} {x : GCObject} {u : Nat} (hne : ∀ y, g.sweepgc = some y → y ≠ .userdata u)
    (hroot : g'.rootgc = g.rootgc) (hmain : g'.mainthread = g.mainthread) (hudata : g'.udata = u :: g.udata)
    (hsweep : g'.sweepgc = g.sweepgc) (hx : x ∈ g.unswept) : x ∈ g'.unswept := by
  have hlist : g'.mainlist = (g.rootgc ++ [.thread g.mainthread]) ++ .userdata u :: g.udata.map .userdata := by
    rw [mainlist_eq, hroot, hmain, hudata]
    rfl
  have hsub : ∀ y, y ∈ g.mainlist → y ∈ g'.mainlist := fun y hy => by
    rw [mainlist_eq] at hy
    rw [hlist]
    exact (List.mem_append.mp hy).elim (fun h => List.mem_append_left _ h) fun h =>
      List.mem_append_right _ (List.mem_cons_of_mem _ h)
  rw [State.unswept] at hx ⊢
  rw [hsweep]
  cases hcur : g.sweepgc with
  | none =>
    rw [hcur] at hx
    exact hsub x hx
  | some y =>
    rw [hcur] at hx
    simp only at hx ⊢
    by_cases hin : y ∈ g.mainlist
    · rw [if_pos hin, mainlist_eq] at hx
      rw [if_pos (hsub y hin), hlist]
      exact mem_following_insert (hne y hcur) hx
    · rw [if_neg hin] at hx
      have hout : y ∉ g'.mainlist := fun hy => by
        rw [hlist] at hy
        rw [mainlist_eq] at hin
        rcases List.mem_append.mp hy with hy | hy
        · exact hin (List.mem_append_left _ hy)
        · rcases List.mem_cons.mp hy with hy | hy
          · exact hne y hcur hy
          · exact hin (List.mem_append_right _ hy)
      rw [if_neg hout, hudata]
      exact List.mem_cons_of_mem _ hx

/-- What the lists of a new object need, that is no upvalue and in no list of `rootgc`. -/
theorem Differs.lists (h : Differs o g hp) (hi : Inv g) (hthread : ∀ th, o ≠ .thread th) (hupval : ∀ uv, o ≠ .upval uv) :
    (∀ x ∈ g.rootgc, Listed hp x) ∧
    (∀ uv ∈ g.uvhead, ∃ th level, hp.upval uv = .opened th level ∧ .thread th ∈ g.objects ∧
      uv ∈ (hp.thread th).openupval) ∧
    ∀ th, .thread th ∈ g.objects → (hp.thread th).openupval.Nodup ∧
      ∀ uv ∈ (hp.thread th).openupval, uv ∈ g.uvhead ∧ ∃ level, hp.upval uv = .opened th level := by
  have hup : ∀ uv, hp.upval uv = g.heap.upval uv := fun uv => h.upval uv fun heq => hupval uv heq.symm
  have hopen : ∀ th, (hp.thread th).openupval = (g.heap.thread th).openupval := fun th =>
    h.openupval th fun heq => hthread th heq.symm
  refine ⟨fun x hx => ?_, fun uv huv => ?_, fun th hth => ?_⟩
  · have hold := hi.lists.rootgc x hx
    cases x with
    | upval uv =>
      rw [Listed, hup]
      exact hold
    | string ts => exact hold
    | userdata u => exact hold
    | function cl => trivial
    | table t => trivial
    | thread th => trivial
    | proto q => trivial
  · simp only [hup, hopen]
    exact hi.lists.uvhead uv huv
  · simp only [hup, hopen]
    exact hi.lists.openupval th hth

end Links

/-! ### The kinds of objects -/

section Kinds

variable {g : State} {o c : GCObject}

theorem table_refs_nil : ((⟨none, [], []⟩ : Table).refs false false) = [] := rfl

theorem differs_table {t : Nat} (hnew : .table t ∉ g.objects) :
    Differs (.table t) g (g.heap.setTable t ⟨none, [], []⟩) := by
  refine ⟨hnew, fun _ _ => rfl, fun x hx => ?_, fun c hc => ?_, fun _ _ => rfl, (by simp)⟩
  · cases x with
    | table t' =>
      have hne : t' ≠ t := fun heq => hnew (heq ▸ hx)
      rw [refs, Heap.table_other _ _ hne]
      rfl
    | string ts => rfl
    | userdata u => rfl
    | upval uv => rfl
    | function cl => rfl
    | thread th => rfl
    | proto q => rfl
  · rw [refs, Heap.table_self] at hc
    exact (List.not_mem_nil hc).elim

theorem differs_closure {cl : Nat} {x : Closure} (hnew : .function cl ∉ g.objects) (halive : ∀ c ∈ x.refs, Alive g c) :
    Differs (.function cl) g (g.heap.setClosure cl x) := by
  refine ⟨hnew, fun _ _ => rfl, fun y hy => ?_, fun c hc => ?_, fun _ _ => rfl, (by simp)⟩
  · cases y with
    | function cl' =>
      have hne : cl' ≠ cl := fun heq => hnew (heq ▸ hy)
      rw [refs, Heap.closure_other _ _ hne]
      rfl
    | string ts => rfl
    | userdata u => rfl
    | upval uv => rfl
    | table t => rfl
    | thread th => rfl
    | proto q => rfl
  · rw [refs, Heap.closure_self] at hc
    exact halive c hc

theorem differs_proto {q : Nat} (hnew : .proto q ∉ g.objects) :
    Differs (.proto q) g (g.heap.setProto q ⟨none, [], [], [], []⟩) := by
  refine ⟨hnew, fun _ _ => rfl, fun x hx => ?_, fun c hc => ?_, fun _ _ => rfl, (by simp)⟩
  · cases x with
    | proto q' =>
      have hne : q' ≠ q := fun heq => hnew (heq ▸ hx)
      rw [refs, Heap.proto_other _ _ hne]
      rfl
    | string ts => rfl
    | userdata u => rfl
    | upval uv => rfl
    | function cl => rfl
    | thread th => rfl
    | table t => rfl
  · rw [refs, Heap.proto_self] at hc
    exact (List.not_mem_nil hc).elim

theorem differs_upval {uv : Nat} (hnew : .upval uv ∉ g.objects) :
    Differs (.upval uv) g (g.heap.setUpval uv (.closed .nil)) := by
  have hother : ∀ uv', GCObject.upval uv' ≠ .upval uv →
      (g.heap.setUpval uv (.closed .nil)).upval uv' = g.heap.upval uv' := fun uv' hne =>
    Heap.upval_other _ _ fun heq => hne (congrArg _ heq)
  refine ⟨hnew, hother, fun x hx => ?_, fun c hc => ?_, fun _ _ => rfl, (by simp)⟩
  · cases x with
    | upval uv' =>
      have hne : GCObject.upval uv' ≠ .upval uv := fun heq => hnew (heq ▸ hx)
      rw [refs, Heap.upvalue, hother uv' hne]
      rfl
    | string ts => rfl
    | userdata u => rfl
    | table t => rfl
    | function cl => rfl
    | thread th => rfl
    | proto q => rfl
  · rw [refs, Heap.upvalue, Heap.upval_self] at hc
    exact (notMem_gcvalues_nil hc).elim

theorem differs_thread {th : Nat} (hi : Inv g) (hnew : .thread th ∉ g.objects) :
    Differs (.thread th) g (g.heap.setThread th ⟨(g.heap.thread g.running).gt, fun _ => .nil, 0, 0, []⟩) := by
  refine ⟨hnew, fun _ _ => rfl, fun x hx => ?_, fun c hc => ?_, fun th' hne => ?_, fun th' heq => ?_⟩
  · cases x with
    | thread th' =>
      have hne : th' ≠ th := fun heq => hnew (heq ▸ hx)
      rw [refs, Heap.thread_other _ _ hne]
      rfl
    | upval uv =>
      rw [refs, refs]
      cases huv : g.heap.upval uv with
      | closed v =>
        rw [Heap.upvalue, Heap.upvalue, huv]
        rw [show (g.heap.setThread th _).upval uv = .closed v from huv]
      | opened th' level =>
        obtain ⟨th'', level', hopen, hin, -⟩ := hi.lists.uvhead uv (mem_uvhead hi.lists hx huv)
        rw [huv] at hopen
        cases hopen
        have hne : th' ≠ th := fun heq => hnew (heq ▸ hin)
        rw [upvalue_of_opened g.heap huv, upvalue_of_opened (g.heap.setThread th _) huv, Heap.thread_other _ _ hne]
    | string ts => rfl
    | userdata u => rfl
    | table t => rfl
    | function cl => rfl
    | proto q => rfl
  · rw [refs, Heap.thread_self] at hc
    have hroot : GCObject.thread g.running ∈ g.roots := List.mem_cons_of_mem _ List.mem_cons_self
    have hrun := hi.roots _ hroot
    obtain ⟨v, hv, hval⟩ := mem_gcvalues.mp hc
    rw [List.mem_singleton.mp hv] at hval
    exact hi.live _ hrun.1 hrun.2 c (mem_gcvalues.mpr ⟨_, List.mem_cons_self, hval⟩)
  · exact congrArg Thread.openupval (Heap.thread_other _ _ fun heq => hne (congrArg _ heq))
  · cases heq
    rw [Heap.thread_self]

theorem made_udata {u env : Nat} (hi : Inv g) (hnew : .userdata u ∉ g.objects) (henv : Alive g (.table env)) :
    Made (.userdata u) g (luaSNewudata u env g) := by
  have hd : Differs (.userdata u) g (g.heap.setUdata u ⟨none, env⟩) := by
    refine ⟨hnew, fun _ _ => rfl, fun x hx => ?_, fun c hc => ?_, fun _ _ => rfl, (by simp)⟩
    · cases x with
      | userdata u' =>
        have hne : u' ≠ u := fun heq => hnew (heq ▸ hx)
        rw [refs, Heap.udata_other _ _ hne]
        rfl
      | string ts => rfl
      | table t => rfl
      | upval uv => rfl
      | function cl => rfl
      | thread th => rfl
      | proto q => rfl
    · rw [refs, Heap.udata_self] at hc
      rw [List.mem_singleton.mp hc]
      exact henv
  obtain ⟨hroot, huvhead, hopen⟩ := hd.lists hi (by simp) (by simp)
  have hmain : (luaSNewudata u env g).mainlist =
      (g.rootgc ++ [.thread g.mainthread]) ++ .userdata u :: g.udata.map .userdata := mainlist_eq _
  have hperm : (luaSNewudata u env g).objects.Perm (.userdata u :: g.objects) := by
    rw [State.objects, hmain, State.objects, mainlist_eq, ← List.cons_append]
    exact List.perm_middle.append_right _
  have hin : ∀ {x}, x ∈ g.objects → x ∈ (luaSNewudata u env g).objects := fun hx =>
    hperm.mem_iff.mpr (List.mem_cons_of_mem _ hx)
  refine ⟨rfl, rfl, hnew, hperm, fun _ _ => rfl, hd.refs, hd.alive, hroot, fun uv huv => ?_, fun th hth => ?_,
    fun _ _ h => .inr h, fun _ h => .inr h, fun x hx => ?_, fun x hx => ?_, fun hs x hx => ?_⟩
  · obtain ⟨th, level, huv', hth, hmem⟩ := huvhead uv huv
    exact ⟨th, level, huv', hin hth, hmem⟩
  · rcases List.mem_cons.mp (hperm.mem_iff.mp hth) with heq | hth
    · cases heq
    · exact hopen th hth
  · rw [hmain] at hx
    rw [mainlist_eq]
    exact List.mem_cons.mp (List.perm_middle.mem_iff.mp hx)
  · rw [hmain]
    rw [mainlist_eq] at hx
    exact List.perm_middle.mem_iff.mpr (List.mem_cons_of_mem _ hx)
  · have hcursor : ∀ y, g.sweepgc = some y → y ≠ .userdata u := ?_
    · exact mem_unswept_insert hcursor rfl rfl rfl rfl hx
    intro y hy heq
    refine hnew ?_
    rcases (hi.sweeps hs).cursor y hy with hin' | ⟨u', hu', rfl⟩
    · exact heq ▸ List.mem_append_left _ hin'
    · rw [← heq]
      exact mem_objects_iff.mpr (.inr (.inr (.inr (.inr ⟨u', .inr hu', rfl⟩))))

theorem flatten_modify_perm {α : Type} {ls : List (List α)} {i : Nat} (x : α) (h : i < ls.length) :
    (ls.modify i (x :: ·)).flatten.Perm (x :: ls.flatten) := by
  induction ls generalizing i with
  | nil => exact absurd h (Nat.not_lt_zero i)
  | cons l ls ih =>
    cases i with
    | zero => exact List.Perm.refl _
    | succ i =>
      have hrest := ih (Nat.lt_of_succ_lt_succ h)
      rw [List.modify_succ_cons, List.flatten_cons, List.flatten_cons]
      exact (hrest.append_left l).trans List.perm_middle

theorem made_string {ts i : Nat} {str : Bytes} (hi : Inv g) (hnew : .string ts ∉ g.objects) (hlt : i < g.strt.length) :
    Made (.string ts) g (newlstr ts str i g) := by
  have hd : Differs (.string ts) g (g.heap.setStr ts str) := by
    refine ⟨hnew, fun _ _ => rfl, fun x _ => ?_, fun c hc => (List.not_mem_nil hc).elim, fun _ _ => rfl, (by simp)⟩
    cases x <;> rfl
  obtain ⟨hroot, huvhead, hopen⟩ := hd.lists hi (by simp) (by simp)
  have hperm : (newlstr ts str i g).objects.Perm (.string ts :: g.objects) := by
    have hflat := (flatten_modify_perm ts hlt).map GCObject.string
    refine List.Perm.trans ?_ List.perm_middle
    exact (hflat.append_right _).append_left _
  have hin : ∀ {x}, x ∈ g.objects → x ∈ (newlstr ts str i g).objects := fun hx =>
    hperm.mem_iff.mpr (List.mem_cons_of_mem _ hx)
  refine ⟨rfl, rfl, hnew, hperm, fun _ _ => rfl, hd.refs, hd.alive, hroot, fun uv huv => ?_, fun th hth => ?_,
    fun j s hs => ?_, fun _ h => .inr h, fun x hx => .inr hx, fun x hx => hx, fun _ x hx => hx⟩
  · obtain ⟨th, level, huv', hth, hmem⟩ := huvhead uv huv
    exact ⟨th, level, huv', hin hth, hmem⟩
  · rcases List.mem_cons.mp (hperm.mem_iff.mp hth) with heq | hth
    · cases heq
    · exact hopen th hth
  · change s ∈ (g.strt.modify i (ts :: ·)).getD j [] at hs
    rw [List.getD_eq_getElem?_getD, List.getElem?_modify] at hs
    rw [List.getD_eq_getElem?_getD]
    cases hj : g.strt[j]? with
    | none =>
      rw [hj] at hs
      cases hs
    | some l =>
      rw [hj] at hs
      simp only [Option.map_eq_map, Option.map_some, Option.getD_some] at hs
      by_cases hij : i = j
      · rw [if_pos hij] at hs
        rcases List.mem_cons.mp hs with rfl | hs
        · exact .inl rfl
        · exact .inr hs
      · rw [if_neg hij] at hs
        exact .inr hs

end Kinds

end UgmeeLua.Gc

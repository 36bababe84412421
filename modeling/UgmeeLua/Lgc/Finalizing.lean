import UgmeeLua.Lgc.Sweeping

namespace UgmeeLua.Gc

/-! ## Userdata that waits for its finalizer -/

section Finalizing

variable {g g' : State} {o c : GCObject} {w m : BitVec 8}

theorem isfresh_markfinalized : isfresh w (markfinalized m) ↔ isfresh w m := by
  rw [isfresh, markfinalized, kept_or (by decide), isfresh]

section Moved

variable (hm : Moved g g')

include hm

theorem Moved.currentwhite : g'.currentwhite = g.currentwhite := by rw [hm.same]

theorem Moved.fresh_iff : Fresh g' o ↔ Fresh g o := by
  rw [Fresh, Fresh, hm.currentwhite]
  rcases hm.marked o with heq | ⟨u, -, heq⟩
  · rw [heq]
  · rw [heq, isfresh_markfinalized]

theorem Moved.dead_iff : Dead g' o ↔ Dead g o := by
  rw [Dead, Dead, hm.currentwhite]
  rcases hm.marked o with heq | ⟨u, -, heq⟩
  · rw [heq]
  · rw [heq, isfresh_markfinalized]

theorem Moved.fixed : testbit (g'.marked o) FIXEDBIT = testbit (g.marked o) FIXEDBIT := by
  rcases hm.marked o with heq | ⟨u, -, heq⟩
  · rw [heq]
  · rw [heq, markfinalized, testbit, testbit, kept_or (by decide)]

theorem Moved.finalized {u : Nat} (h : isfinalized (g.marked (.userdata u)) = true) :
    isfinalized (g'.marked (.userdata u)) = true := by
  rcases hm.marked (.userdata u) with heq | ⟨_, -, heq⟩
  · rwa [heq]
  · rw [heq]
    exact isfinalized_markfinalized

end Moved

theorem following_append {x : GCObject} {l l' : List GCObject} (h : x ∉ l) : following x (l ++ l') = following x l' := by
  induction l with
  | nil => rfl
  | cons a l ih =>
    have hne : x ≠ a := fun heq => h (heq ▸ List.mem_cons_self)
    rw [List.cons_append, following_cons hne]
    exact ih fun hin => h (List.mem_cons_of_mem _ hin)

theorem following_filter {x y : GCObject} {p : GCObject → Bool} {l : List GCObject} (hx : p x = true) (hy : p y = true)
    (h : x ∈ following y l) : x ∈ following y (l.filter p) := by
  induction l with
  | nil => exact h
  | cons a l ih =>
    by_cases ha : y = a
    · subst ha
      rw [List.filter_cons_of_pos hy]
      rw [following, List.dropWhile_cons_of_neg (by simp), List.tail_cons] at h ⊢
      exact List.mem_filter.mpr ⟨h, hx⟩
    · rw [following_cons ha] at h
      by_cases hpa : p a = true
      · rw [List.filter_cons_of_pos hpa, following_cons ha]
        exact ih h
      · rw [List.filter_cons_of_neg hpa]
        exact ih h

theorem mem_mainlist_of_thread {th : Nat} (hin : GCObject.thread th ∈ g.objects) :
    GCObject.thread th ∈ g.mainlist := by
  rcases mem_objects_iff.mp hin with hr | hr | ⟨ts, -, hr⟩ | ⟨uv', -, hr⟩ | ⟨u, -, hr⟩
  · exact List.mem_append_left _ hr
  · rw [hr]
    exact List.mem_append_right _ List.mem_cons_self
  · cases hr
  · cases hr
  · cases hr

/-- Only userdata leaves the list of all objects. -/
def stays (p : Nat → Bool) : GCObject → Bool
  | .userdata u => p u
  | _ => true

/-- Userdata leaves the list of all objects behind the place where the sweep is, or with it. -/
theorem unswept_moved {p : Nat → Bool} {x : GCObject} (hl : Lists g) (hm : Moved g g') (hudata : g'.udata = g.udata.filter p)
    (hx : x ∈ g'.mainlist) (hun : x ∈ g.unswept) : x ∈ g'.unswept := by
  have hroot : g'.rootgc = g.rootgc := by rw [hm.same]
  have hmain : g'.mainthread = g.mainthread := by rw [hm.same]
  have hsweep : g'.sweepgc = g.sweepgc := by rw [hm.same]
  have hlist : g'.mainlist = g.rootgc ++ .thread g.mainthread :: (g.udata.filter p).map .userdata := by
    rw [State.mainlist, hroot, hmain, hudata]
  have hfilter : g'.mainlist = g.mainlist.filter (stays p) := by
    have hfirst : g.rootgc.filter (stays p) = g.rootgc := List.filter_eq_self.mpr fun o ho => by
      have hlisted := hl.rootgc o ho
      cases o with
      | userdata u => exact hlisted.elim
      | string ts => rfl
      | upval uv => rfl
      | function cl => rfl
      | table t => rfl
      | thread th => rfl
      | proto _ => rfl
    have hthread : stays p (.thread g.mainthread) = true := rfl
    rw [hlist, State.mainlist, List.filter_append, hfirst, List.filter_cons_of_pos hthread, List.filter_map]
    rfl
  have hqx : stays p x = true := (List.mem_filter.mp (hfilter ▸ hx)).2
  -- What is behind userdata is userdata, and has stayed.
  have hbehind : ∀ u ∈ g.udata, x = .userdata u → x ∈ g'.udata.map .userdata := by
    rintro u hu rfl
    rw [hudata]
    exact List.mem_map_of_mem (List.mem_filter.mpr ⟨hu, hqx⟩)
  rw [State.unswept] at hun ⊢
  rw [hsweep]
  cases hcur : g.sweepgc with
  | none => exact hx
  | some y =>
    rw [hcur] at hun
    simp only at hun ⊢
    by_cases hin : y ∈ g.mainlist
    · rw [if_pos hin] at hun
      by_cases hqy : stays p y = true
      · have hin' : y ∈ g'.mainlist := hfilter ▸ List.mem_filter.mpr ⟨hin, hqy⟩
        rw [if_pos hin', hfilter]
        exact following_filter hqx hqy hun
      · have hout : y ∉ g'.mainlist := fun hy => hqy (List.mem_filter.mp (hfilter ▸ hy)).2
        rw [if_neg hout]
        have hy : y ∉ g.rootgc ++ [.thread g.mainthread] := by
          intro hy
          refine hout ?_
          rw [hlist]
          rcases List.mem_append.mp hy with hy | hy
          · exact List.mem_append_left _ hy
          · rw [List.mem_singleton.mp hy]
            exact List.mem_append_right _ List.mem_cons_self
        rw [mainlist_eq, following_append hy] at hun
        obtain ⟨u, hu, heq⟩ := List.mem_map.mp (mem_of_following hun)
        exact hbehind u hu heq.symm
    · have hout : y ∉ g'.mainlist := fun hy => hin (List.mem_filter.mp (hfilter ▸ hy)).1
      rw [if_neg hin] at hun
      rw [if_neg hout]
      obtain ⟨u, hu, heq⟩ := List.mem_map.mp hun
      exact hbehind u hu heq.symm

/-- Userdata that lives goes to the list of pending userdata. -/
theorem Inv.moved {p : Nat → Bool} (h : Inv g) (hm : Moved g g') (hudata : g'.udata = g.udata.filter p)
    (htm : ∀ u ∈ g'.tmudata, isfinalized (g'.marked (.userdata u)) = true ∧ ¬ Dead g (.userdata u)) : Inv g' := by
  have hobjects : ∀ o, o ∈ g'.objects ↔ o ∈ g.objects := fun o => hm.objects.mem_iff
  have hstate : g'.gcstate = g.gcstate := by rw [hm.same]
  have hmainthread : g'.mainthread = g.mainthread := by rw [hm.same]
  have huvhead : g'.uvhead = g.uvhead := by rw [hm.same]
  have hroot : g'.rootgc = g.rootgc := by rw [hm.same]
  have hregistry : g'.registry = g.registry := by rw [hm.same]
  have hsub : ∀ u ∈ g'.udata, u ∈ g.udata := fun u hu => (List.mem_filter.mp (hudata ▸ hu)).1
  have hpend : ∀ o, Pending g o → Pending g' o := fun o hp => hp.imp fun u hu => ⟨hm.sub u hu.1, hu.2⟩
  refine ⟨⟨?_, ?_, ?_, ?_, ?_, ?_, ?_, fun u hu => (htm u hu).1⟩, ?_, ?_, ?_, ?_, ?_, ?_, ?_, ?_⟩
  · exact hm.objects.nodup_iff.mpr h.lists.nodup
  · rw [hroot, hm.heap]
    exact h.lists.rootgc
  · rw [huvhead, hm.heap]
    intro uv huv
    obtain ⟨th, level, hopen, hth, hmem⟩ := h.lists.uvhead uv huv
    exact ⟨th, level, hopen, (hobjects _).mpr hth, hmem⟩
  · rw [huvhead, hm.heap]
    exact fun th hth => h.lists.openupval th ((hobjects _).mp hth)
  · rw [huvhead, hm.black]
    exact h.lists.opened
  · rw [hm.currentwhite]
    exact h.lists.onewhite
  · intro o ho hfix
    rw [hmainthread]
    exact h.lists.fixed o ((hobjects o).mp ho) (hm.fixed ▸ hfix)
  · intro o ho
    rw [hm.fresh_iff, hm.dead_iff, hm.white]
    exact h.colour o ((hobjects o).mp ho)
  · intro o ho hd c hc
    rw [hm.dead_iff] at hd
    rw [hm.heap] at hc
    obtain ⟨hin, hdc⟩ := h.live o ((hobjects o).mp ho) hd c hc
    exact ⟨(hobjects c).mpr hin, fun hd' => hdc (hm.dead_iff.mp hd')⟩
  · intro o ho
    rw [hobjects, hm.dead_iff]
    by_cases hp : Pending g' o
    · obtain ⟨u, hu, rfl⟩ := hp
      refine ⟨?_, (htm u hu).2⟩
      have hin : GCObject.userdata u ∈ g'.objects := mem_objects_iff.mpr (.inr (.inr (.inr (.inr ⟨u, .inr hu, rfl⟩))))
      exact (hobjects _).mp hin
    · refine h.roots o ?_
      have hrest : ∀ x : State, x.roots = (.thread x.mainthread :: .thread x.running :: (gcvalues [x.registry] ++
          x.mt.reduceOption.map .table)) ++ x.tmudata.map .userdata := fun x => by
        simp only [State.roots, List.cons_append, List.append_assoc]
      rw [hrest] at ho ⊢
      rw [hm.same] at ho
      rcases List.mem_append.mp ho with ho | ho
      · exact List.mem_append_left _ ho
      · obtain ⟨u, hu, rfl⟩ := List.mem_map.mp ho
        exact absurd ⟨u, hu, rfl⟩ hp
  · intro u hu hd
    exact hm.finalized (h.finalized u (hsub u hu) (hm.dead_iff.mp hd))
  · rw [hstate]
    intro hs o ho
    rw [hm.fresh_iff]
    exact (h.resting hs o ((hobjects o).mp ho)).imp_right (hpend o)
  · rw [hstate]
    intro hs
    have hmarks := h.marks hs
    refine ⟨fun o ho hd => hmarks.alive o ((hobjects o).mp ho) (hm.dead_iff.mp hd),
      hmarks.phase.moved (by decide) hm, ?_, ?_⟩
    · rw [hmainthread, hm.white]
      exact hmarks.main
    · rw [hregistry, NonWhite, hm.white]
      exact hmarks.registry
  · rw [hstate]
    intro hs
    obtain ⟨hcursor, hall⟩ := h.sweepstring hs
    have hstrt : g'.strt = g.strt := by rw [hm.same]
    have hcount : g'.sweepstrgc = g.sweepstrgc := by rw [hm.same]
    have hsweep : g'.sweepgc = g.sweepgc := by rw [hm.same]
    rw [hsweep, hcount, hstrt]
    exact ⟨hcursor, fun i hi ts hts => hm.fresh_iff.mpr (hall i hi ts hts)⟩
  · rw [hstate]
    intro hs
    have hsw := h.sweeps hs
    have hstrt : g'.strt = g.strt := by rw [hm.same]
    have hsweep : g'.sweepgc = g.sweepgc := by rw [hm.same]
    have hmainlist : ∀ x ∈ g'.mainlist, x ∈ g.mainlist := by
      intro x hx
      rw [State.mainlist, hroot, hmainthread] at hx
      rcases List.mem_append.mp hx with hx | hx
      · exact List.mem_append_left _ hx
      · refine List.mem_append_right _ ?_
        rcases List.mem_cons.mp hx with rfl | hx
        · exact List.mem_cons_self
        · obtain ⟨u, hu, rfl⟩ := List.mem_map.mp hx
          exact List.mem_cons_of_mem _ (List.mem_map_of_mem (hsub u hu))
    refine ⟨?_, ?_, fun x hx hout => hm.fresh_iff.mpr (hsw.fresh x (hmainlist x hx) fun hun =>
      hout (unswept_moved h.lists hm hudata hx hun)), ?_⟩
    · rw [hstrt]
      exact fun ts hts => hm.fresh_iff.mpr (hsw.strings ts hts)
    · rw [hsweep]
      intro y hy
      rcases hsw.cursor y hy with hin | hp
      · rcases mem_objects_iff.mp ((hobjects y).mpr (List.mem_append_left _ hin)) with
          hr | hr | ⟨ts, -, rfl⟩ | ⟨uv, -, rfl⟩ | ⟨u, hu | hu, rfl⟩
        · exact .inl (List.mem_append_left _ hr)
        · rw [hr]
          exact .inl (List.mem_append_right _ List.mem_cons_self)
        · rcases List.mem_append.mp hin with hr | hr
          · exact (h.lists.rootgc _ hr).elim
          · simp at hr
        · rcases List.mem_append.mp hin with hr | hr
          · exact .inl (List.mem_append_left _ (hroot ▸ hr))
          · simp at hr
        · exact .inl (List.mem_append_right _ (List.mem_cons_of_mem _ (List.mem_map_of_mem hu)))
        · exact .inr ⟨u, hu, rfl⟩
      · exact .inr (hpend y hp)
    · rw [huvhead, hm.heap]
      intro uv huv th level hup hout
      refine hm.fresh_iff.mpr (hsw.upvals uv huv th level hup fun hun => hout ?_)
      obtain ⟨th', level', hup', hth, -⟩ := h.lists.uvhead uv huv
      rw [hup] at hup'
      cases hup'
      refine unswept_moved h.lists hm hudata ?_ hun
      have hin := mem_mainlist_of_thread hth
      rw [State.mainlist, hroot, hmainthread]
      rcases List.mem_append.mp hin with hr | hr
      · exact List.mem_append_left _ hr
      · refine List.mem_append_right _ ?_
        rcases List.mem_cons.mp hr with hr | hr
        · rw [hr]
          exact List.mem_cons_self
        · simp at hr

/-- `lua_close` finds all userdata that has not been found before. -/
theorem close_inv (h : Inv g) : Inv (luaCSeparateudata true { g with closing := true, running := g.mainthread }) := by
  have hroots : ∀ o ∈ State.roots { g with running := g.mainthread, mt := g.mt, closing := true }, Alive g o := by
    intro o ho
    refine h.roots o (State.mem_roots.mpr ?_)
    rcases State.mem_roots.mp ho with hmain | hrunning | ho
    · exact .inl hmain
    · exact .inl hrunning
    · exact .inr (.inr ho)
  have h1 : Inv { g with running := g.mainthread, mt := g.mt, closing := true } := h.others _ _ _ hroots
  have hnodup : g.udata.Nodup := by
    have hmap := ((List.nodup_append.mp (List.nodup_append.mp h.lists.nodup).1).2.1)
    exact (List.nodup_cons.mp hmap).2.of_map _
  generalize hg1 : { g with running := g.mainthread, mt := g.mt, closing := true } = g1 at h1
  have hmarked : g1.marked = g.marked := by rw [← hg1]
  have hwhite : g1.currentwhite = g.currentwhite := by rw [← hg1]
  have hudata : g1.udata = g.udata := by rw [← hg1]
  have htm : g1.tmudata = g.tmudata := by rw [← hg1]
  rw [← hudata] at hnodup
  have hmoved : Moved g1 (luaCSeparateudata true g1) := luaCSeparateudata_moved hnodup
  have hspec : Separated true g1.udata { g1 with udata := [] } (luaCSeparateudata true g1) := luaCSeparateudata_spec hnodup
  have hnot : ∀ c, Dead g1 c → Dead g c := fun c hd => by rwa [Dead, hmarked, hwhite] at hd
  have hgoal : Inv (luaCSeparateudata true g1) := h1.moved hmoved hspec.udata fun u hu => ?_
  · subst hg1
    exact hgoal
  rw [hspec.tmudata] at hu
  rcases List.mem_append.mp hu with hu | hu
  · have hold : GCObject.userdata u ∈ g.roots := State.tmudata_mem_roots (htm ▸ hu)
    exact ⟨hmoved.finalized (h1.lists.tmudata u hu), fun hd => (h.roots _ hold).2 (hnot _ hd)⟩
  · obtain ⟨hin, hfound⟩ := List.mem_filter.mp hu
    have hf := (Bool.and_eq_true _ _ ▸ hfound).1
    refine ⟨?_, fun hd => ?_⟩
    · rw [hspec.finalized u hin hf]
      exact isfinalized_markfinalized
    · have hfin := h1.finalized u hin hd
      change ((g1.white (.userdata u) || true) && !isfinalized (g1.marked (.userdata u))) = true at hf
      rw [hfin, Bool.not_true, Bool.and_false] at hf
      cases hf

/-- Pending userdata goes back to the list of all objects, and is white. -/
theorem pending_inv {u : Nat} {tmudata : List Nat} (h : Inv g) (hs : g.gcstate ≠ .GCSpropagate)
    (htm : g.tmudata = u :: tmudata) :
    Inv { g.whiten (.userdata u) with tmudata := tmudata, udata := u :: g.udata } := by
  have hu : GCObject.userdata u ∈ g.roots := State.tmudata_mem_roots (htm ▸ List.mem_cons_self)
  have h1 := h.whiten (h.roots _ hu).2 hs
  have hfresh : Fresh (g.whiten (.userdata u)) (.userdata u) := by
    rw [Fresh, (remarked_whiten h.onewhite (.userdata u)).self]
    exact isfresh_makewhite h.onewhite
  generalize hg1 : g.whiten (.userdata u) = g1 at h1 hfresh
  have htm1 : g1.tmudata = u :: tmudata := by
    rw [← hg1]
    exact htm
  have hs1 : g1.gcstate ≠ .GCSpropagate := by
    rw [← hg1]
    exact hs
  let g2 : State := { g1 with tmudata := tmudata, udata := u :: g1.udata }
  have hgoal : Inv g2 := by
    have hperm : g2.objects.Perm g1.objects := by
      refine List.perm_iff_count.mpr fun o => ?_
      simp only [g2, State.objects, State.mainlist, htm1, List.map_cons, List.count_append, List.count_cons]
      omega
    have hobjects : ∀ o, o ∈ g2.objects ↔ o ∈ g1.objects := fun o => hperm.mem_iff
    have hpend : ∀ o, Pending g1 o → o = .userdata u ∨ Pending g2 o := by
      rintro o ⟨u', hu', rfl⟩
      rw [htm1] at hu'
      rcases List.mem_cons.mp hu' with rfl | hu'
      · exact .inl rfl
      · exact .inr ⟨u', hu', rfl⟩
    have hunswept : g1.gcstate = .GCSsweep → ∀ x, x ≠ .userdata u → x ∈ g1.unswept → x ∈ g2.unswept := by
      intro hs' x hxu hx
      by_cases hcur : ∀ y, g1.sweepgc = some y → y ≠ .userdata u
      · exact mem_unswept_insert hcur rfl rfl rfl rfl hx
      · push Not at hcur
        obtain ⟨y, hy, rfl⟩ := hcur
        have hpending : Pending g1 (.userdata u) := ⟨u, htm1 ▸ List.mem_cons_self, rfl⟩
        have hout := not_mem_mainlist_of_pending h1.lists hpending
        have hin : GCObject.userdata u ∈ g2.mainlist :=
          List.mem_append_right _ (List.mem_cons_of_mem _ (List.mem_map_of_mem List.mem_cons_self))
        have hfirst : GCObject.userdata u ∉ g1.rootgc ++ [.thread g1.mainthread] := fun hr => by
          rcases List.mem_append.mp hr with hr | hr
          · exact h1.lists.rootgc _ hr
          · cases List.mem_singleton.mp hr
        rw [State.unswept, hy] at hx
        simp only at hx
        rw [if_neg hout] at hx
        rw [State.unswept, show g2.sweepgc = some (.userdata u) from hy]
        simp only
        rw [if_pos hin, mainlist_eq, following_append hfirst]
        change x ∈ following (.userdata u) (.userdata u :: g1.udata.map .userdata)
        rw [following, List.dropWhile_cons_of_neg (by simp), List.tail_cons]
        exact hx
    refine ⟨⟨hperm.nodup_iff.mpr h1.lists.nodup, h1.lists.rootgc, fun uv huv => ?_, fun th hth =>
      h1.lists.openupval th ((hobjects _).mp hth), h1.lists.opened, h1.lists.onewhite, fun o ho =>
      h1.lists.fixed o ((hobjects o).mp ho), fun u' hu' => h1.lists.tmudata u' (htm1 ▸ List.mem_cons_of_mem _ hu')⟩,
      fun o ho => h1.colour o ((hobjects o).mp ho), fun o ho hd c hc => ?_, fun o ho => ?_, fun u' hu' hd => ?_,
      fun hs' o ho => ?_, fun hs' => absurd hs' hs1, h1.sweepstring, fun hs' => ?_⟩
    · obtain ⟨th, level, hopen, hth, hmem⟩ := h1.lists.uvhead uv huv
      exact ⟨th, level, hopen, (hobjects _).mpr hth, hmem⟩
    · obtain ⟨hin, hdc⟩ := h1.live o ((hobjects o).mp ho) hd c hc
      exact ⟨(hobjects c).mpr hin, hdc⟩
    · have hsub : o ∈ g1.roots := by
        rcases List.mem_cons.mp ho with rfl | ho
        · exact List.mem_cons_self
        · refine List.mem_cons_of_mem _ ?_
          rcases List.mem_cons.mp ho with rfl | ho
          · exact List.mem_cons_self
          · refine List.mem_cons_of_mem _ ?_
            rcases List.mem_append.mp ho with ho | ho
            · exact List.mem_append_left _ ho
            · refine List.mem_append_right _ ?_
              rcases List.mem_append.mp ho with ho | ho
              · exact List.mem_append_left _ ho
              · rw [htm1]
                exact List.mem_append_right _ (List.mem_cons_of_mem _ ho)
      exact ⟨(hobjects o).mpr (h1.roots o hsub).1, (h1.roots o hsub).2⟩
    · rcases List.mem_cons.mp hu' with rfl | hu'
      · exact absurd hd (hfresh.not_dead h1.onewhite)
      · exact h1.finalized u' hu' hd
    · rcases h1.resting hs' o ((hobjects o).mp ho) with hf | hp
      · exact .inl hf
      · refine (hpend o hp).imp_left fun heq => ?_
        rw [heq]
        exact hfresh
    · have hsw := h1.sweeps hs'
      refine ⟨hsw.strings, fun y hy => ?_, fun x hx hout => ?_, fun uv huv th level hup hout => ?_⟩
      · rcases hsw.cursor y hy with hin | hp
        · left
          rw [mainlist_eq] at hin ⊢
          rcases List.mem_append.mp hin with hin | hin
          · exact List.mem_append_left _ hin
          · exact List.mem_append_right _ (List.mem_cons_of_mem _ hin)
        · rcases hpend y hp with rfl | hp
          · exact .inl (List.mem_append_right _ (List.mem_cons_of_mem _ (List.mem_map_of_mem List.mem_cons_self)))
          · exact .inr hp
      · by_cases hxu : x = .userdata u
        · exact hxu ▸ hfresh
        · refine hsw.fresh x ?_ fun hun => hout (hunswept hs' x hxu hun)
          rw [mainlist_eq] at hx ⊢
          rcases List.mem_append.mp hx with hx | hx
          · exact List.mem_append_left _ hx
          · exact List.mem_append_right _ ((List.mem_cons.mp hx).resolve_left hxu)
      · exact hsw.upvals uv huv th level hup fun hun => hout (hunswept hs' _ (by simp) hun)
  subst hg1
  exact hgoal

theorem mem_refs_of_getstr {t : Table} {ts : Nat} (hc : c ∈ gcvalues [getstr t ts]) : c ∈ t.refs false false := by
  rw [getstr] at hc
  cases hfind : t.node.find? fun n => n.key = .string ts ∧ n.dead = false with
  | none =>
    rw [hfind] at hc
    exact absurd hc notMem_gcvalues_nil
  | some n =>
    rw [hfind] at hc
    obtain ⟨v, hv, hval⟩ := mem_gcvalues.mp hc
    cases List.mem_singleton.mp hv
    refine Table.mem_refs.mpr (.inr (.inr ⟨n, List.mem_of_find?_eq_some hfind, fun hnil => ?_, .inr ⟨rfl, hval⟩⟩))
    change n.val.gcvalue = some c at hval
    rw [hnil] at hval
    cases hval

/-- The finalizer of an object that lives is alive. -/
theorem Inv.fasttm {mt : Option Nat} {ename : Nat} {tm : TValue} (h : Inv g) (hmt : ∀ t ∈ mt, Alive g (.table t))
    (htm : fasttm g.heap mt ename = some tm) : ∀ c ∈ gcvalues [tm], Alive g c := by
  cases mt with
  | none => cases htm
  | some t =>
    intro c hc
    have heq : getstr (g.heap.table t) ename = tm := by
      rw [Gc.fasttm] at htm
      split at htm
      · cases htm
      · exact Option.some.inj htm
    have hlive := hmt t rfl
    exact h.live _ hlive.1 hlive.2 c (mem_refs_of_getstr (heq ▸ hc))

/-- `GCTM`, outside of the mark phase. -/
theorem gctm_inv (h : Inv g) (hs : g.gcstate ≠ .GCSpropagate) : Inv (gctm g) := by
  rw [gctm]
  cases htm : g.tmudata with
  | nil => exact h
  | cons u tmudata =>
    have h1 := pending_inv h hs htm
    simp only
    cases hgc : fasttm (g.whiten (.userdata u)).heap ((g.whiten (.userdata u)).heap.udata u).metatable
        (g.whiten (.userdata u)).tmGc with
    | none => exact h1
    | some tm =>
      refine h1.pushes fun c hc => ?_
      have hin : GCObject.userdata u ∈ g.roots := State.tmudata_mem_roots (htm ▸ List.mem_cons_self)
      have hself : Alive { g.whiten (.userdata u) with tmudata := tmudata, udata := u :: g.udata } (.userdata u) := by
        refine ⟨List.mem_append_left _ (List.mem_append_right _ (List.mem_cons_of_mem _ (List.mem_map_of_mem
          List.mem_cons_self))), ?_⟩
        exact fun hd => (h.roots _ hin).2 ((remarked_whiten h.onewhite (.userdata u)).was_dead hd)
      obtain ⟨v, hv, hval⟩ := mem_gcvalues.mp hc
      rcases List.mem_cons.mp hv with rfl | hv
      · refine h1.fasttm (fun t ht => ?_) hgc c (mem_gcvalues.mpr ⟨v, List.mem_singleton_self v, hval⟩)
        refine h1.live _ hself.1 hself.2 _ ?_
        exact List.mem_append_left _ (List.mem_map_of_mem (Option.mem_toList.mpr ht))
      · cases List.mem_singleton.mp hv
        cases hval
        exact hself

end Finalizing

end UgmeeLua.Gc

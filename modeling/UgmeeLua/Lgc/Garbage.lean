import UgmeeLua.Lgc.Sound
import Mathlib.Data.Prod.Lex

namespace UgmeeLua.Gc

/-! ## What the sweep leaves alone -/

section Spares

variable {g g' g'' : State} {o : GCObject} {th uv : Nat}

/-- Objects are freed, and survivors get other marks. -/
structure Spares (g g' : State) : Prop where
  currentwhite : g'.currentwhite = g.currentwhite
  objects : ∀ o ∈ g'.objects, o ∈ g.objects
  marked : ∀ o, g.survives o = false → g'.marked o = g.marked o

theorem Spares.refl (g : State) : Spares g g := ⟨rfl, fun _ h => h, fun _ _ => rfl⟩

theorem Spares.trans (h : Spares g g') (h' : Spares g' g'') : Spares g g'' := by
  refine ⟨h'.currentwhite.trans h.currentwhite, fun o ho => h.objects o (h'.objects o ho), fun o ho => ?_⟩
  have hmark := h.marked o ho
  have ho' : g'.survives o = false := by
    rw [State.survives, hmark, h.currentwhite]
    exact ho
  exact (h'.marked o ho').trans hmark

theorem Freed.spares (h : Freed g g') : Spares g g' := by
  refine ⟨?_, h.sub, fun o _ => ?_⟩
  · rw [h.same]
  · rw [h.same]

theorem spares_whiten (ho : g.survives o = true) : Spares g (g.whiten o) := by
  refine ⟨rfl, fun _ h => h, fun c hc => Function.update_of_ne ?_ ..⟩
  rintro rfl
  rw [ho] at hc
  cases hc

theorem spares_whiten_all {α : Type} {f : α → GCObject} {l : List α} (hw : OneWhite g.currentwhite)
    (hl : ∀ x ∈ l, g.survives (f x) = true) : Spares g (marksAll (fun x g => g.whiten (f x)) l g) := by
  induction l generalizing g with
  | nil => exact Spares.refl g
  | cons x l ih =>
    refine (spares_whiten (hl x List.mem_cons_self)).trans (ih hw fun y hy => ?_)
    have hr := remarked_whiten hw (f x)
    by_cases heq : f y = f x
    · rw [State.survives, heq, hr.self]
      exact hw.survives_makewhite
    · rw [State.survives, hr.other heq]
      exact hl y (List.mem_cons_of_mem _ hy)

theorem spares_sweepstrings (h : Inv g) (i : Nat) : Spares g (sweepstrings i g) :=
  (freed_strings h).spares.trans (spares_whiten_all h.onewhite fun _ hts => (List.mem_filter.mp hts).2)

theorem spares_sweepopenupval (h : Inv g) (hth : .thread th ∈ g.objects) : Spares g (sweepopenupval th g) := by
  rw [sweepopenupval]
  simp only [marksAll_freeupval]
  exact (freed_openupval h hth).spares.trans (spares_whiten_all h.onewhite fun _ huv => (List.mem_filter.mp huv).2)

theorem OneWhite.survives_of_not_white {w m : BitVec 8} (hw : OneWhite w) (hm : iswhite m = false) :
    UgmeeLua.survives w m = true := hw.survives_of_alive (isdead_of_not_white hm)

theorem mem_objects_linked {l : List Nat} (huv : uv ∈ g.uvhead) (ho : o ∈ (linked th uv l g).objects) : o ∈ g.objects := by
  rcases mem_objects_iff.mp ho with hr | hr | hr | ⟨uv', huv', rfl⟩ | hr
  · rcases List.mem_cons.mp hr with rfl | hr
    · exact mem_objects_iff.mpr (.inr (.inr (.inr (.inl ⟨uv, huv, rfl⟩))))
    · exact mem_objects_iff.mpr (.inl hr)
  · exact mem_objects_iff.mpr (.inr (.inl hr))
  · exact mem_objects_iff.mpr (.inr (.inr (.inl hr)))
  · exact mem_objects_iff.mpr (.inr (.inr (.inr (.inl ⟨uv', List.mem_of_mem_erase huv', rfl⟩))))
  · exact mem_objects_iff.mpr (.inr (.inr (.inr (.inr hr))))

theorem spares_closeupval {l : List Nat} (h : Inv g) (hs : g.gcstate ≠ .GCSpropagate) (huv : uv ∈ g.uvhead) :
    Spares g (closeupval th uv l g) := by
  rw [closeupval_eq hs]
  split_ifs with hdead hgray
  · refine ⟨rfl, fun o ho => ?_, fun _ _ => rfl⟩
    rcases mem_objects_iff.mp ho with hr | hr | hr | ⟨uv', huv', rfl⟩ | hr
    · exact mem_objects_iff.mpr (.inl hr)
    · exact mem_objects_iff.mpr (.inr (.inl hr))
    · exact mem_objects_iff.mpr (.inr (.inr (.inl hr)))
    · exact mem_objects_iff.mpr (.inr (.inr (.inr (.inl ⟨uv', List.mem_of_mem_erase huv', rfl⟩))))
    · exact mem_objects_iff.mpr (.inr (.inr (.inr (.inr hr))))
  · have hlinked : Spares g (linked th uv l g) := ⟨rfl, fun _ ho => mem_objects_linked huv ho, fun _ _ => rfl⟩
    refine hlinked.trans (spares_whiten (OneWhite.survives_of_not_white h.onewhite ?_))
    rw [isgray, Bool.and_eq_true, Bool.not_eq_true', Bool.not_eq_true'] at hgray
    exact hgray.2
  · exact ⟨rfl, fun _ ho => mem_objects_linked huv ho, fun _ _ => rfl⟩

theorem spares_closeall {l : List Nat} (h : Inv g) (hs : g.gcstate ≠ .GCSpropagate) (hth : .thread th ∈ g.mainlist)
    (hopen : (g.heap.thread th).openupval = l) : Spares g (closeall th l g) := by
  induction l generalizing g with
  | nil => exact Spares.refl g
  | cons uv l ih =>
    have hin : GCObject.thread th ∈ g.objects := List.mem_append_left _ hth
    obtain ⟨huv, level, hup⟩ := (h.lists.openupval th hin).2 uv (hopen ▸ List.mem_cons_self)
    have hrest := closeupval_rest th uv l hs
    have hs1 : (closeupval th uv l g).gcstate ≠ .GCSpropagate := by
      rw [hrest.same]
      exact hs
    have hth1 : GCObject.thread th ∈ (closeupval th uv l g).mainlist := by
      rw [hrest.same]
      rcases List.mem_append.mp hth with hr | hr
      · exact List.mem_append_left _ (hrest.rootgc _ hr)
      · exact List.mem_append_right _ hr
    exact (spares_closeupval h hs huv).trans (ih (closeupval_inv h ⟨hin, hopen, hup⟩) hs1 hth1 hrest.openupval)

end Spares

/-! ## The sweep ends -/

section Ends

variable {g g' g'' : State} {o : GCObject}

/-- `sweepgc` points behind an object of the list. -/
def Placed (g : State) : Prop := ∀ o, g.sweepgc = some o → o ∈ g.mainlist

/-- How many objects there are, and how many the sweep has still to come to. -/
def rank (g : State) : Nat ×ₗ Nat := toLex (g.objects.length, g.unswept.length)

theorem length_objects_le (h : Inv g') (hs : Spares g g') : g'.objects.length ≤ g.objects.length :=
  (List.subperm_of_subset h.lists.nodup hs.objects).length_le

theorem rank_freed (h : Inv g') (hs : Spares g g') (ho : o ∈ g.objects) (hout : o ∉ g'.objects) : rank g' < rank g := by
  refine Prod.Lex.toLex_lt_toLex.mpr (.inl ?_)
  have hsub : (o :: g'.objects).Subperm g.objects := by
    refine List.subperm_of_subset (List.nodup_cons.mpr ⟨hout, h.lists.nodup⟩) fun x hx => ?_
    rcases List.mem_cons.mp hx with rfl | hx
    · exact ho
    · exact hs.objects x hx
  exact hsub.length_le

theorem rank_swept (h : Inv g') (hs : Spares g g') (hlt : g'.unswept.length < g.unswept.length) : rank g' < rank g :=
  Prod.Lex.toLex_lt_toLex.mpr <| (Nat.eq_or_lt_of_le (length_objects_le h hs)).elim (fun heq => .inr ⟨heq, hlt⟩) .inl

theorem unswept_cons (h : Inv g) (hp : Placed g) (ho : g.swept = some o) :
    o ∈ g.mainlist ∧ g.sweepgc ≠ some o ∧ g.unswept = o :: following o g.mainlist := by
  have hnodup : g.mainlist.Nodup := (List.nodup_append.mp h.lists.nodup).1
  rcases swept_cases h ho with ⟨hin, hne, -⟩ | ⟨hpend, -⟩
  · refine ⟨hin, hne, ?_⟩
    rw [State.swept] at ho
    rw [State.unswept]
    cases hcur : g.sweepgc with
    | none =>
      rw [hcur] at ho
      obtain ⟨rest, hrest⟩ : ∃ rest, g.mainlist = o :: rest := List.head?_eq_some_iff.mp ho
      simp only
      rw [hrest, following, List.dropWhile_cons_of_neg (by simp), List.tail_cons]
    | some y =>
      rw [hcur] at ho
      simp only at ho ⊢
      rw [if_pos (hp y hcur)] at ho ⊢
      obtain ⟨rest, hrest⟩ : ∃ rest, following y g.mainlist = o :: rest := List.head?_eq_some_iff.mp ho
      rw [following_split hnodup hrest, hrest]
  · refine absurd ?_ (not_mem_mainlist_of_pending h.lists hpend)
    rw [State.swept] at ho
    cases hcur : g.sweepgc with
    | none =>
      rw [hcur] at ho
      exact List.mem_of_mem_head? ho
    | some y =>
      rw [hcur] at ho
      simp only at ho
      rw [if_pos (hp y hcur)] at ho
      exact mem_of_following (List.mem_of_mem_head? ho)

theorem notMem_unlink (h : Inv g) (hin : o ∈ g.mainlist) (hne : o ≠ .thread g.mainthread) : o ∉ (unlink o g).objects := by
  obtain ⟨hmain, htm⟩ := mainlist_unlink h.lists hin hne
  obtain ⟨hnodup, -, hdisj⟩ := List.nodup_append.mp h.lists.nodup
  have hrest : ∀ x ∈ g.strt.flatten.map GCObject.string ++ (g.uvhead.map .upval ++ g.tmudata.map .userdata), x ≠ o :=
    fun x hx heq => hdisj o hin x hx heq.symm
  have hsame : (unlink o g).strt = g.strt ∧ (unlink o g).uvhead = g.uvhead := by cases o <;> exact ⟨rfl, rfl⟩
  intro hmem
  rw [State.objects, hmain, htm, hsame.1, hsame.2] at hmem
  rcases List.mem_append.mp hmem with hmem | hmem
  · exact (hnodup.mem_erase_iff.mp hmem).1 rfl
  · exact hrest o hmem rfl

/-- An object is freed. -/
theorem freed_on (h : Inv g) (hp : Placed g) (hin : o ∈ g.mainlist) (hd : Dead g o) (hcur : g.sweepgc ≠ some o)
    (hopen : ∀ th, o = .thread th → (g.heap.thread th).openupval = []) :
    Spares g (unlink o g) ∧ Placed (unlink o g) ∧ o ∉ (unlink o g).objects := by
  have hfreed := freed_unlink h hin hd hcur hopen
  have hne : o ≠ .thread g.mainthread := fun heq => (h.roots _ List.mem_cons_self).2 (heq ▸ hd)
  refine ⟨hfreed.spares, fun y hy => ?_, notMem_unlink h hin hne⟩
  rw [hfreed.same] at hy
  exact hfreed.cursor y hy (hp y hy)

theorem freeobj_on (h : Inv g) (hs : g.gcstate ≠ .GCSpropagate) (hp : Placed g) (hin : o ∈ g.mainlist)
    (hcur : g.sweepgc ≠ some o) (hd : Dead g o) :
    Spares g (freeobj o (unlink o g)) ∧ Placed (freeobj o (unlink o g)) ∧ o ∉ (freeobj o (unlink o g)).objects := by
  have hother : (∀ th, o ≠ .thread th) → Spares g (unlink o g) ∧ Placed (unlink o g) ∧ o ∉ (unlink o g).objects :=
    fun hkind => freed_on h hp hin hd hcur fun th heq => absurd heq (hkind th)
  cases o with
  | thread th =>
    have heap : (unlink (.thread th) g).heap = g.heap := rfl
    rw [freeobj]
    simp only [heap]
    rw [closeall_unlink hs]
    obtain ⟨h1, hrest⟩ := closeall_inv h hs hin rfl
    have hmain : ∀ x ∈ g.mainlist, x ∈ (closeall th (g.heap.thread th).openupval g).mainlist := by
      intro x hx
      rw [hrest.same]
      rcases List.mem_append.mp hx with hr | hr
      · exact List.mem_append_left _ (hrest.rootgc _ hr)
      · exact List.mem_append_right _ hr
    have hp1 : Placed (closeall th (g.heap.thread th).openupval g) := fun y hy => by
      rw [hrest.same] at hy
      exact hmain y (hp y hy)
    obtain ⟨hspares, hrest'⟩ := freed_on h1 hp1 (hmain _ hin) (by
        rw [Dead, hrest.other (.thread th) (by simp), show State.currentwhite _ = g.currentwhite by rw [hrest.same]]
        exact hd) (by
        rw [hrest.same]
        exact hcur) fun th' heq => by
        cases heq
        exact hrest.openupval
    exact ⟨(spares_closeall h hs hin rfl).trans hspares, hrest'⟩
  | string ts => exact hother (by simp)
  | userdata u => exact hother (by simp)
  | upval uv => exact hother (by simp)
  | function cl => exact hother (by simp)
  | table t => exact hother (by simp)
  | proto q => exact hother (by simp)

/-- One object is swept: it is freed, or behind `sweepgc`. -/
theorem sweepobject_on (h : Inv g) (hs : g.gcstate = .GCSsweep) (hp : Placed g) (ho : g.swept = some o) :
    Spares g (sweepobject o g) ∧ Placed (sweepobject o g) ∧ rank (sweepobject o g) < rank g := by
  have hne : g.gcstate ≠ .GCSpropagate := by
    rw [hs]
    decide
  have hinv := (sweepobject_inv h hs ho).1
  obtain ⟨hin, hcur, hunswept⟩ := unswept_cons h hp ho
  have hobj : o ∈ g.objects := List.mem_append_left _ hin
  have hbefore : ∀ g1, Inv g1 → g1 = { g with heap := g1.heap, marked := g1.marked, uvhead := g1.uvhead } →
      Spares g g1 → sweepobject o g =
        (if g1.survives o then { g1.whiten o with sweepgc := some o } else freeobj o (unlink o g1)) →
      Spares g (sweepobject o g) ∧ Placed (sweepobject o g) ∧ rank (sweepobject o g) < rank g := by
    intro g1 h1 hsame hspares heq
    have hmain : g1.mainlist = g.mainlist := by
      rw [hsame]
      rfl
    have hp1 : Placed g1 := fun y hy => by
      rw [hmain]
      rw [hsame] at hy
      exact hp y hy
    rw [heq] at hinv ⊢
    by_cases hsurvives : g1.survives o = true
    · rw [if_pos hsurvives] at hinv ⊢
      have hafter : Spares g { g1.whiten o with sweepgc := some o } := by
        have hwhite := hspares.trans (spares_whiten hsurvives)
        exact ⟨hwhite.currentwhite, hwhite.objects, hwhite.marked⟩
      refine ⟨hafter, fun y hy => ?_, rank_swept hinv hafter ?_⟩
      · cases hy
        exact hmain ▸ hin
      · have hnext : State.unswept { g1.whiten o with sweepgc := some o } = following o g.mainlist := by
          change (if o ∈ g1.mainlist then following o g1.mainlist else _) = _
          rw [hmain, if_pos hin]
        rw [hnext, hunswept, List.length_cons]
        exact Nat.lt_succ_self _
    · rw [if_neg hsurvives] at hinv ⊢
      have hs1 : g1.gcstate ≠ .GCSpropagate := by
        rw [hsame]
        exact hne
      have hdead : Dead g1 o := by
        by_contra hnot
        exact hsurvives (h1.survives_of_alive (List.mem_append_left _ (hmain ▸ hin)) hnot)
      obtain ⟨hfree, hplaced, hout⟩ := freeobj_on h1 hs1 hp1 (hmain ▸ hin) (by
        rw [hsame]
        exact hcur) hdead
      exact ⟨hspares.trans hfree, hplaced, rank_freed hinv (hspares.trans hfree) hobj hout⟩
  cases o with
  | thread th =>
    have hswept := sweepopenupval_inv h hne hobj
    exact hbefore _ hswept.inv hswept.same (spares_sweepopenupval h hobj) rfl
  | string ts => exact hbefore g h rfl (Spares.refl g) rfl
  | userdata u => exact hbefore g h rfl (Spares.refl g) rfl
  | upval uv => exact hbefore g h rfl (Spares.refl g) rfl
  | function cl => exact hbefore g h rfl (Spares.refl g) rfl
  | table t => exact hbefore g h rfl (Spares.refl g) rfl
  | proto q => exact hbefore g h rfl (Spares.refl g) rfl

theorem sweeplist_on {n : Nat} (h : Inv g) (hs : g.gcstate = .GCSsweep) (hp : Placed g) :
    Spares g (sweeplist n g) ∧ Placed (sweeplist n g) ∧ rank (sweeplist n g) ≤ rank g := by
  induction n generalizing g with
  | zero => exact ⟨Spares.refl g, hp, le_refl _⟩
  | succ n ih =>
    rw [sweeplist]
    cases ho : g.swept with
    | none => exact ⟨Spares.refl g, hp, le_refl _⟩
    | some o =>
      obtain ⟨hspares, hp1, hlt⟩ := sweepobject_on h hs hp ho
      obtain ⟨h1, hs1⟩ := sweepobject_inv h hs ho
      obtain ⟨hspares2, hp2, hle⟩ := ih h1 hs1 hp1
      exact ⟨hspares.trans hspares2, hp2, hle.trans hlt.le⟩

/-- A state in a cycle that swept from `g0` on. -/
structure Sweeping (s : GCState) (g0 g : State) : Prop where
  inv : Inv g
  gcstate : g.gcstate = s
  spares : Spares g0 g
  placed : Placed g

theorem same_sweepstrings (h : Inv g) (hs : g.gcstate = .GCSsweepstring) {i : Nat} :
    sweepstrings i g = { g with
      marked := (sweepstrings i g).marked
      strt := g.strt.set i ((g.strt.getD i []).filter fun ts => g.survives (.string ts)) } := by
  have hne : g.gcstate ≠ .GCSpropagate := by
    rw [hs]
    decide
  obtain ⟨-, hall, -⟩ := whiten_all (f := GCObject.string)
    (l := (g.strt.getD i []).filter fun ts => g.survives (.string ts)) ((freed_strings h).inv h hne) hne fun _ _ => .inr rfl
  rw [sweepstrings, hall]

/-- The strings are swept list by list. -/
theorem strings_end {g0 : State} (h : Sweeping .GCSsweepstring g0 g) :
    Run.Leads singlestep (Sweeping .GCSsweep g0) g := by
  refine Run.Leads.of_rank Nat.lt_wfRel.wf (fun g => g.strt.length - g.sweepstrgc) (Sweeping .GCSsweepstring g0)
    (fun g1 h1 => ?_) h
  obtain ⟨hi, hs, hspares, hp⟩ := h1
  have hnext := singlestep_inv hi
  have hstep := hspares.trans (spares_sweepstrings hi g1.sweepstrgc)
  have hcursor : (sweepstrings g1.sweepstrgc g1).sweepgc = none := by
    rw [same_sweepstrings hi hs]
    exact (hi.sweepstring hs).1
  have hstate : (sweepstrings g1.sweepstrgc g1).gcstate = .GCSsweepstring := by
    rw [same_sweepstrings hi hs]
    exact hs
  have hcount : (sweepstrings g1.sweepstrgc g1).strt.length = g1.strt.length := by
    rw [same_sweepstrings hi hs]
    exact List.length_set
  rw [singlestep] at hnext ⊢
  simp only [hs] at hnext ⊢
  generalize sweepstrings g1.sweepstrgc g1 = g2 at hnext hstep hcursor hcount hstate
  split_ifs at hnext ⊢ with hend
  · refine .inl ⟨hnext, rfl, ⟨hstep.currentwhite, hstep.objects, hstep.marked⟩, fun y hy => ?_⟩
    rw [hcursor] at hy
    cases hy
  · refine .inr ⟨⟨hnext, hstate, ⟨hstep.currentwhite, hstep.objects, hstep.marked⟩, fun y hy => ?_⟩, ?_⟩
    · rw [hcursor] at hy
      cases hy
    · change g2.strt.length - (g1.sweepstrgc + 1) < g1.strt.length - g1.sweepstrgc
      omega

/-- The objects are swept, and each pass of `sweeplist` leaves less to do. -/
theorem objects_end {g0 : State} (h : Sweeping .GCSsweep g0 g) :
    Run.Leads singlestep (Sweeping .GCSfinalize g0) g := by
  refine Run.Leads.of_rank (wellFounded_lt (α := Nat ×ₗ Nat)) rank (Sweeping .GCSsweep g0) (fun g1 h1 => ?_) h
  obtain ⟨hi, hs, hspares, hp⟩ := h1
  have hnext := singlestep_inv hi
  rw [singlestep] at hnext ⊢
  simp only [hs] at hnext ⊢
  cases ho : g1.swept with
  | none =>
    have hstay : sweeplist GCSWEEPMAX g1 = g1 := by
      rw [GCSWEEPMAX, sweeplist, ho]
    rw [hstay, ho] at hnext ⊢
    exact .inl ⟨hnext, rfl, ⟨hspares.currentwhite, hspares.objects, hspares.marked⟩, hp⟩
  | some o =>
    obtain ⟨hone, hp1, hlt⟩ := sweepobject_on hi hs hp ho
    obtain ⟨h1, hs1⟩ := sweepobject_inv hi hs ho
    obtain ⟨hrest, hp2, hle⟩ := sweeplist_on (n := 39) h1 hs1 hp1
    obtain ⟨-, hs2⟩ := sweeplist_inv (n := 39) h1 hs1
    have hpass : sweeplist GCSWEEPMAX g1 = sweeplist 39 (sweepobject o g1) := by
      rw [GCSWEEPMAX, sweeplist, ho]
    have hall := hspares.trans (hone.trans hrest)
    rw [hpass] at hnext ⊢
    generalize sweeplist 39 (sweepobject o g1) = g2 at hnext hall hp2 hle hs2
    cases hend : g2.swept with
    | none =>
      rw [hend] at hnext
      exact .inl ⟨hnext, rfl, ⟨hall.currentwhite, hall.objects, hall.marked⟩, hp2⟩
    | some o' =>
      rw [hend] at hnext
      exact .inr ⟨⟨hnext, hs2, hall, hp2⟩, hle.trans_lt hlt⟩

/-- Behind the sweep no object is left that was dead before it. -/
theorem Sweeping.not_dead {g0 : State} (h : Sweeping .GCSfinalize g0 g) (hw : OneWhite g0.currentwhite) (ho : o ∈ g.objects)
    (hfix : testbit (g0.marked o) FIXEDBIT = false) : o ∈ g0.objects ∧ ¬ Dead g0 o := by
  refine ⟨h.spares.objects o ho, fun hd => ?_⟩
  have hmark := h.spares.marked o (hw.survives_dead hd hfix)
  have hdead : Dead g o := by
    rw [Dead, hmark, h.spares.currentwhite]
    exact hd
  rcases h.inv.resting (.inr h.gcstate) o ho with hf | ⟨u, hu, rfl⟩
  · exact hf.not_dead h.inv.onewhite hdead
  · exact (h.inv.roots _ (State.tmudata_mem_roots hu)).2 hdead

end Ends

/-! ## A whole cycle -/

section Cycle

variable {g g' : State} {o : GCObject}

/-- What is kept by the cycle that begins now: what can be reached from the roots and from userdata whose
finalizer is still to be called. -/
def Kept (g : State) : GCObject → Prop :=
  Run.Reach (fun o => o ∈ g.roots ∨ ∃ u ∈ g.udata, o = .userdata u ∧ isfinalized (g.marked o) = false ∧
    Finalizable g.heap g.tmGc u) fun o o' => o' ∈ refs g.heap o

/-- The mark phase of a cycle that began in `g0`. -/
structure Marking (g0 g : State) : Prop where
  inv : Inv g
  gcstate : g.gcstate = .GCSpropagate
  sound : Sound (Kept g0) g0.heap g
  marches : Marches { g0 with gcstate := .GCSpropagate } g

theorem kept_closed (g : State) : Closed (Kept g) g.heap := fun _ ho _ hc => Run.Reach.step ho hc

theorem markroot_marking (h : Inv g) (hs : g.gcstate = .GCSpause ∨ g.gcstate = .GCSfinalize) : Marking g (markroot g) := by
  obtain ⟨hinv, hmarches⟩ := markroot_spec h hs
  refine ⟨hinv, rfl, markroot_sound (kept_closed g) (fun o ho => .start (.inl ho)) fun o ho hn => ?_, hmarches⟩
  rcases h.resting hs o ho with hf | ⟨u, hu, rfl⟩
  · rw [hf.white h.onewhite] at hn
    cases hn
  · exact .start (.inl (State.tmudata_mem_roots hu))

theorem marking_ends {g0 : State} (h : Marking g0 g) :
    Run.Leads singlestep (fun g' => ∃ g1, Marking g0 g1 ∧ g1.gray = [] ∧ g' = atomic g1) g := by
  refine Run.Leads.of_rank Nat.lt_wfRel.wf propagations (Marking g0) (fun g1 h1 => ?_) h
  rw [singlestep, h1.gcstate]
  simp only
  split_ifs with hgray
  · exact .inl ⟨g1, h1, hgray, rfl⟩
  · obtain ⟨o, rest, hcons⟩ := List.exists_cons_of_ne_nil hgray
    have hstep := propagatemark_phase (h1.inv.marks h1.gcstate).phase hcons
    refine .inr ⟨⟨h1.inv.marches h1.gcstate hstep.phase hstep.marches, ?_, sound_propagatemark h1.sound,
      h1.marches.trans hstep.marches⟩, hstep.size⟩
    rw [hstep.marches.same]
    exact h1.gcstate

/-- Behind `atomic` only what is kept is alive. -/
theorem marking_atomic {g0 : State} (h : Marking g0 g) : Sweeping .GCSsweepstring (atomic g) (atomic g) ∧
    ∀ o ∈ (atomic g).objects, o ∈ g0.objects ∧ testbit ((atomic g).marked o) FIXEDBIT = testbit (g0.marked o) FIXEDBIT ∧
      (Kept g0 o ∨ Dead (atomic g) o) := by
  obtain ⟨hcomplete, hsame⟩ := atomic_complete h.inv h.gcstate
  have hudata : g.udata = g0.udata ∧ g.tmGc = g0.tmGc := by
    rw [h.marches.same]
    exact ⟨rfl, rfl⟩
  have htm : (remarkall g).tmGc = g.tmGc := by rw [(h.inv.remarkall h.gcstate).2.1.same]
  have hsound := atomic_sound h.sound h.inv.udata_nodup htm fun u hu hfin hgc => by
    rw [hudata.1] at hu
    rw [hudata.2] at hgc
    rw [h.marches.finalized] at hfin
    exact .start (.inr ⟨u, hu, rfl, hfin, hgc⟩)
  have heq : atomic g = flipwhite (cleartables (preserveudata g)) := rfl
  rw [heq]
  generalize cleartables (preserveudata g) = g' at hcomplete hsame hsound
  have hnone : (flipwhite g').sweepgc = none := rfl
  refine ⟨⟨hcomplete.flip, rfl, Spares.refl _, fun o ho => ?_⟩, fun o ho => ?_⟩
  · rw [hnone] at ho
    cases ho
  obtain ⟨hin, hfixed⟩ := hsame o
  have hold : o ∈ g.objects := hin.mp ho
  rw [h.marches.objects] at hold
  refine ⟨hold, hfixed.trans (h.marches.fixed o), ?_⟩
  cases hw : g'.white o with
  | false => exact .inl (hsound.marked o ho hw)
  | true => exact .inr ((hcomplete.dead_iff ho).mpr hw)

/-- A cycle comes to its end, and frees all that is garbage where it begins, but for strings and the main thread
that are fixed. -/
theorem collects_garbage (h : Run.Reach (· = start) ShieldedStep g) (hs : g.gcstate = .GCSpause ∨ g.gcstate = .GCSfinalize) :
    ∃ n, let g' := singlestep^[n] (markroot g)
      g'.gcstate = .GCSfinalize ∧ ∀ o ∈ g'.objects, o ∈ g.objects ∧ (Kept g o ∨ testbit (g.marked o) FIXEDBIT = true) := by
  have hmark := marking_ends (markroot_marking (inv_of_run h) hs)
  change Run.Leads singlestep (fun g' => g'.gcstate = .GCSfinalize ∧ ∀ o ∈ g'.objects,
    o ∈ g.objects ∧ (Kept g o ∨ testbit (g.marked o) FIXEDBIT = true)) (markroot g)
  refine hmark.trans fun g1 hg1 => ?_
  obtain ⟨g2, h2, -, rfl⟩ := hg1
  obtain ⟨hsweep, hobjects⟩ := marking_atomic h2
  refine ((strings_end hsweep).trans fun g3 h3 => objects_end h3).trans fun g4 h4 => ⟨0, h4.gcstate, fun o ho => ?_⟩
  obtain ⟨hin, hfixed, hcase⟩ := hobjects o (h4.spares.objects o ho)
  refine ⟨hin, ?_⟩
  cases hfix : testbit (g.marked o) FIXEDBIT with
  | true => exact .inr rfl
  | false => exact .inl (hcase.resolve_right (h4.not_dead hsweep.inv.onewhite ho (hfixed.trans hfix)).2)

/-- A table that nothing refers to any more. -/
theorem collects_garbage_dropped :
    let g := perform (.settop 0 0) (perform (.newtable 2) start)
    ∃ n, let g' := singlestep^[n] (markroot g)
      g'.gcstate = .GCSfinalize ∧ ∀ o ∈ g'.objects, o ∈ g.objects ∧ (Kept g o ∨ testbit (g.marked o) FIXEDBIT = true) := by
  have hnew : Allowed start (.newtable 2) := by
    change GCObject.table 2 ∉ start.objects
    decide
  have hdrop : Allowed (perform (.newtable 2) start) (.settop 0 0) := .start (by decide)
  exact collects_garbage (.step (.step (.start rfl) ⟨.newtable 2, hnew, trivial, rfl⟩) ⟨.settop 0 0, hdrop, trivial, rfl⟩)
    (.inl (by decide))

end Cycle

end UgmeeLua.Gc

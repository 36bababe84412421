import UgmeeLua.Lgc.Freeing

namespace UgmeeLua.Gc

/-! ## Upvalues that are closed -/

section Relinked

variable {g : State} {o c : GCObject} {th uv level : Nat} {l : List Nat} {m : BitVec 8}

/-- The first open upvalue of a thread is closed, and in the list of all objects. -/
def relinked (th uv : Nat) (l : List Nat) (m : BitVec 8) (g : State) : State :=
  { g with
    heap := (g.heap.setThread th { g.heap.thread th with openupval := l }).setUpval uv (.closed (g.heap.upvalue uv))
    marked := Function.update g.marked (.upval uv) m
    rootgc := .upval uv :: g.rootgc
    uvhead := g.uvhead.erase uv }

/-- The first open upvalue of a thread. -/
structure First (th uv level : Nat) (l : List Nat) (g : State) : Prop where
  thread : .thread th ∈ g.objects
  openupval : (g.heap.thread th).openupval = uv :: l
  opened : g.heap.upval uv = .opened th level

theorem Lists.uvhead_nodup (hl : Lists g) : g.uvhead.Nodup := by
  have hnodup := hl.nodup
  rw [State.objects] at hnodup
  have hmap := (List.nodup_append.mp (List.nodup_append.mp (List.nodup_append.mp hnodup).2.1).2.1).1
  exact hmap.of_map

/-- The values stay what they were. -/
theorem refs_relinked (x : GCObject) : refs (relinked th uv l m g).heap x = refs g.heap x := by
  have hthread : ∀ th', ((relinked th uv l m g).heap.thread th').gt = (g.heap.thread th').gt ∧
      ((relinked th uv l m g).heap.thread th').stack = (g.heap.thread th').stack ∧
      ((relinked th uv l m g).heap.thread th').top = (g.heap.thread th').top := by
    intro th'
    by_cases heq : th' = th
    · subst heq
      have hself : (relinked th' uv l m g).heap.thread th' = { g.heap.thread th' with openupval := l } :=
        Heap.thread_self ..
      rw [hself]
      exact ⟨rfl, rfl, rfl⟩
    · have hother : (relinked th uv l m g).heap.thread th' = g.heap.thread th' := Heap.thread_other _ _ heq
      rw [hother]
      exact ⟨rfl, rfl, rfl⟩
  cases x with
  | thread th' =>
    rw [refs, refs, Thread.refs, Thread.refs, (hthread th').1, (hthread th').2.1, (hthread th').2.2]
  | upval uv' =>
    rw [refs, refs]
    by_cases heq : uv' = uv
    · subst heq
      have hself : (relinked th uv' l m g).heap.upval uv' = .closed (g.heap.upvalue uv') := Heap.upval_self ..
      rw [Heap.upvalue, hself]
    · have hother : (relinked th uv l m g).heap.upval uv' = g.heap.upval uv' := Heap.upval_other _ _ heq
      rw [Heap.upvalue, Heap.upvalue, hother]
      cases g.heap.upval uv' with
      | closed v => rfl
      | opened th' level' =>
        simp only
        rw [(hthread th').2.1]
  | string ts => rfl
  | userdata u => rfl
  | function cl => rfl
  | table t => rfl
  | proto q => rfl

section

variable (hf : First th uv level l g) (hl : Lists g)

include hf hl

theorem First.uvhead : uv ∈ g.uvhead :=
  ((hl.openupval th hf.thread).2 uv (hf.openupval ▸ List.mem_cons_self)).1

theorem First.mem : .upval uv ∈ g.objects :=
  mem_objects_iff.mpr (.inr (.inr (.inr (.inl ⟨uv, hf.uvhead hl, rfl⟩))))

theorem First.notMem : uv ∉ l := by
  have hnodup := (hl.openupval th hf.thread).1
  rw [hf.openupval] at hnodup
  exact (List.nodup_cons.mp hnodup).1

theorem First.notMem_mainlist : .upval uv ∉ g.mainlist := fun hin => by
  rcases List.mem_append.mp hin with hin | hin
  · obtain ⟨v, hv⟩ := hl.rootgc _ hin
    rw [hf.opened] at hv
    cases hv
  · rcases List.mem_cons.mp hin with heq | hin
    · cases heq
    · obtain ⟨u, -, heq⟩ := List.mem_map.mp hin
      cases heq

theorem First.objects_relinked : (relinked th uv l m g).objects.Perm g.objects := by
  have herase : (.upval uv :: (g.uvhead.erase uv).map GCObject.upval).Perm (g.uvhead.map .upval) :=
    (List.perm_cons_erase (hf.uvhead hl)).symm.map GCObject.upval
  have hcount := List.perm_iff_count.mp herase
  refine List.perm_iff_count.mpr fun x => ?_
  have hx := hcount x
  simp only [State.objects, State.mainlist, relinked, List.count_append, List.count_cons] at hx ⊢
  omega

theorem First.lists_relinked (hm : testbit m FIXEDBIT = testbit (g.marked (.upval uv)) FIXEDBIT) :
    Lists (relinked th uv l m g) := by
  have hperm := hf.objects_relinked (m := m) hl
  have hself : (relinked th uv l m g).heap.upval uv = .closed (g.heap.upvalue uv) := Heap.upval_self ..
  have hother : ∀ uv', uv' ≠ uv → (relinked th uv l m g).heap.upval uv' = g.heap.upval uv' := fun uv' hne =>
    Heap.upval_other _ _ hne
  have hthread : (relinked th uv l m g).heap.thread th = { g.heap.thread th with openupval := l } := Heap.thread_self ..
  have hthread' : ∀ th', th' ≠ th → (relinked th uv l m g).heap.thread th' = g.heap.thread th' := fun th' hne =>
    Heap.thread_other _ _ hne
  have hmarked : ∀ x, x ≠ .upval uv → (relinked th uv l m g).marked x = g.marked x := fun x hne =>
    Function.update_of_ne hne ..
  have hne : ∀ uv' ∈ g.uvhead.erase uv, uv' ≠ uv ∧ uv' ∈ g.uvhead := fun uv' huv =>
    hl.uvhead_nodup.mem_erase_iff.mp huv
  refine ⟨hperm.nodup_iff.mpr hl.nodup, fun x hx => ?_, fun uv' huv => ?_, fun th' hth => ?_, fun uv' huv => ?_,
    hl.onewhite, fun x hx hfix => ?_, fun u hu => ?_⟩
  · rcases List.mem_cons.mp hx with rfl | hx
    · exact ⟨_, hself⟩
    · have hold := hl.rootgc x hx
      cases x with
      | upval uv' =>
        obtain ⟨v, hv⟩ := hold
        refine ⟨v, (hother uv' fun heq => ?_).trans hv⟩
        rw [heq, hf.opened] at hv
        cases hv
      | string ts => exact hold
      | userdata u => exact hold
      | function cl => trivial
      | table t => trivial
      | thread th => trivial
      | proto q => trivial
  · obtain ⟨hdiff, hin⟩ := hne uv' huv
    obtain ⟨th', level', hopen, hth, hmem⟩ := hl.uvhead uv' hin
    refine ⟨th', level', (hother uv' hdiff).trans hopen, hperm.mem_iff.mpr hth, ?_⟩
    by_cases heq : th' = th
    · subst heq
      rw [hf.openupval] at hmem
      rw [hthread]
      exact (List.mem_cons.mp hmem).resolve_left hdiff
    · rw [hthread' th' heq]
      exact hmem
  · obtain ⟨hnodup, hall⟩ := hl.openupval th' (hperm.mem_iff.mp hth)
    by_cases heq : th' = th
    · subst heq
      rw [hf.openupval] at hnodup hall
      rw [hthread]
      refine ⟨(List.nodup_cons.mp hnodup).2, fun uv' huv => ?_⟩
      obtain ⟨hin, level', hopen⟩ := hall uv' (List.mem_cons_of_mem _ huv)
      have hdiff : uv' ≠ uv := fun he => hf.notMem hl (he ▸ huv)
      exact ⟨hl.uvhead_nodup.mem_erase_iff.mpr ⟨hdiff, hin⟩, level', (hother uv' hdiff).trans hopen⟩
    · rw [hthread' th' heq]
      refine ⟨hnodup, fun uv' huv => ?_⟩
      obtain ⟨hin, level', hopen⟩ := hall uv' huv
      have hdiff : uv' ≠ uv := fun he => by
        rw [he, hf.opened] at hopen
        cases hopen
        exact heq rfl
      exact ⟨hl.uvhead_nodup.mem_erase_iff.mpr ⟨hdiff, hin⟩, level', (hother uv' hdiff).trans hopen⟩
  · obtain ⟨hdiff, hin⟩ := hne uv' huv
    rw [State.black, hmarked _ fun heq => hdiff (GCObject.upval.inj heq)]
    exact hl.opened uv' hin
  · by_cases heq : x = .upval uv
    · subst heq
      rw [show (relinked th uv l m g).marked (.upval uv) = m from Function.update_self .., hm] at hfix
      exact hl.fixed _ (hperm.mem_iff.mp hx) hfix
    · rw [hmarked x heq] at hfix
      exact hl.fixed x (hperm.mem_iff.mp hx) hfix
  · rw [hmarked (.userdata u) (by simp)]
    exact hl.tmudata u hu

end

/-- In the mark phase an upvalue that is closed is white, or it is black and its value is marked. -/
theorem First.phase_relinked (hf : First th uv level l g) (hl : Lists g) (hp : Phase 0 Nowhere g)
    (hm : (m = g.marked (.upval uv) ∧ iswhite m = true) ∨
      (m = gray2black (g.marked (.upval uv)) ∧ g.white (.upval uv) = false ∧ NonWhite g (refs g.heap (.upval uv)))) :
    Phase 0 Nowhere (relinked th uv l m g) := by
  have hperm := hf.objects_relinked (m := m) hl
  have hin := hf.mem hl
  have hrefs := @refs_relinked g th uv l m
  have hself : (relinked th uv l m g).marked (.upval uv) = m := Function.update_self ..
  have hother : ∀ x, x ≠ .upval uv → (relinked th uv l m g).marked x = g.marked x := fun x hne =>
    Function.update_of_ne hne ..
  have hwhite : ∀ x, (relinked th uv l m g).white x = g.white x := fun x => by
    by_cases heq : x = .upval uv
    · subst heq
      rw [State.white, hself]
      rcases hm with ⟨rfl, -⟩ | ⟨rfl, -⟩
      · rfl
      · exact iswhite_gray2black
    · rw [State.white, hother x heq, State.white]
  have hexempt : ∀ x, x ≠ .upval uv → (Exempt (relinked th uv l m g).heap x ↔ Exempt g.heap x) := fun x hne => by
    cases x with
    | upval uv' =>
      have hup : (relinked th uv l m g).heap.upval uv' = g.heap.upval uv' :=
        Heap.upval_other _ _ fun heq => hne (heq ▸ rfl)
      rw [Exempt, Exempt, hup]
    | string ts => rfl
    | userdata u => rfl
    | function cl => rfl
    | table t => rfl
    | thread th => rfl
    | proto q => rfl
  have hnone : ∀ {n : Nat}, n + 1 ≤ 0 → False := fun hn => Nat.not_succ_le_zero _ hn
  have hclosed : (relinked th uv l m g).heap.upval uv = .closed (g.heap.upvalue uv) := Heap.upval_self ..
  refine ⟨fun x hx c hc => ?_, fun x hx hb hpend _ c hc => ?_, fun x hx hn => ?_, fun x hx hw => ?_,
    fun x hx hb hex => ?_, fun x hx => ?_, hp.nodup, fun hn => (hnone hn).elim, fun hn => (hnone hn).elim,
    fun hn => (hnone hn).elim, fun hn => (hnone hn).elim⟩
  · rw [hrefs] at hc
    exact hperm.mem_iff.mpr (hp.closed x (hperm.mem_iff.mp hx) c hc)
  · rw [hrefs] at hc
    rw [hwhite]
    by_cases heq : x = .upval uv
    · subst heq
      rcases hm with ⟨rfl, hw⟩ | ⟨-, -, hdone⟩
      · rw [State.black, hself] at hb
        have hnot := hp.notblack _ hin hw
        rw [State.black, hb] at hnot
        cases hnot
      · exact hdone c hc
    · rw [State.black, hother x heq] at hb
      exact hp.black x (hperm.mem_iff.mp hx) hb hpend id c hc
  · rw [hwhite] at hn
    by_cases heq : x = .upval uv
    · subst heq
      rcases hm with ⟨rfl, hw⟩ | ⟨rfl, -⟩
      · rw [State.white, hw] at hn
        cases hn
      · exact .inl ((congrArg isblack hself).trans isblack_gray2black)
    · refine (hp.settled x (hperm.mem_iff.mp hx) hn).imp (fun hb => ?_) (fun u hu _ => .inr hu)
        (fun _ _ hex => .inr ((hexempt x heq).mpr hex)) .inr
      rw [State.black, hother x heq]
      exact hb
  · rw [hwhite] at hw
    have hnot := hp.notblack x (hperm.mem_iff.mp hx) hw
    by_cases heq : x = .upval uv
    · subst heq
      rcases hm with ⟨rfl, -⟩ | ⟨-, hn, -⟩
      · rw [State.black, hself]
        exact hnot
      · rw [hn] at hw
        cases hw
    · rw [State.black, hother x heq]
      exact hnot
  · by_cases heq : x = .upval uv
    · subst heq
      obtain ⟨th', level', hopen⟩ := hex
      rw [hclosed] at hopen
      cases hopen
    · rw [State.black, hother x heq] at hb
      exact hp.exempt x (hperm.mem_iff.mp hx) hb ((hexempt x heq).mp hex)
  · obtain ⟨hx, hn, hkind, hb⟩ := hp.listed x hx
    refine ⟨hperm.mem_iff.mpr hx, (hwhite x).trans hn, hkind, fun hnot => ?_⟩
    rw [State.black, hother x fun heq => by rw [heq] at hkind; exact hkind]
    exact hb hnot

/-- An upvalue is closed that is white, or that is black and has a marked value in the mark phase. -/
theorem First.relinked_inv (hf : First th uv level l g) (h : Inv g)
    (hm : (m = g.marked (.upval uv) ∧ Fresh g (.upval uv)) ∨
      (g.gcstate = .GCSpropagate ∧ m = gray2black (g.marked (.upval uv)) ∧ g.white (.upval uv) = false ∧
        NonWhite g (refs g.heap (.upval uv)))) :
    Inv (relinked th uv l m g) := by
  have hl := h.lists
  have hperm := hf.objects_relinked (m := m) hl
  have hrefs := @refs_relinked g th uv l m
  have hself : (relinked th uv l m g).marked (.upval uv) = m := Function.update_self ..
  have hother : ∀ x, x ≠ .upval uv → (relinked th uv l m g).marked x = g.marked x := fun x hne =>
    Function.update_of_ne hne ..
  -- Outside of the mark phase no mark changes.
  have hsame : g.gcstate ≠ .GCSpropagate → ∀ x, Fresh g x → Fresh (relinked th uv l m g) x := by
    intro hs x hx
    have hmark : m = g.marked (.upval uv) := by
      rcases hm with ⟨heq, -⟩ | ⟨hs', -⟩
      · exact heq
      · exact absurd hs' hs
    rw [Fresh, show (relinked th uv l m g).marked x = g.marked x by
      rw [relinked, hmark, Function.update_eq_self]]
    exact hx
  have hdead : ∀ x, Dead (relinked th uv l m g) x → Dead g x := by
    intro x hx
    by_cases heq : x = .upval uv
    · subst heq
      rw [Dead, hself] at hx
      rcases hm with ⟨rfl, -⟩ | ⟨-, rfl, hn, -⟩
      · exact hx
      · have hw := isfresh.white hx h.onewhite.otherwhite
        rw [iswhite_gray2black] at hw
        rw [State.white, hw] at hn
        cases hn
    · rwa [Dead, hother x heq] at hx
  have halive : ∀ x, Alive g x → Alive (relinked th uv l m g) x := fun x hx =>
    ⟨hperm.mem_iff.mpr hx.1, fun hd => hx.2 (hdead x hd)⟩
  have hnotdead : ¬ Dead g (.upval uv) := by
    rcases hm with ⟨-, hfresh⟩ | ⟨-, -, hn, -⟩
    · exact hfresh.not_dead h.onewhite
    · exact not_dead_of_not_white hn h.onewhite
  have hfixed : testbit m FIXEDBIT = testbit (g.marked (.upval uv)) FIXEDBIT := by
    rcases hm with ⟨rfl, -⟩ | ⟨-, rfl, -⟩
    · rfl
    · exact fixed_gray2black
  refine ⟨hf.lists_relinked hl hfixed, fun x hx => ?_, fun x hx hd c hc => ?_, fun x hx => halive x (h.roots x hx),
    fun u hu hd => ?_, fun hs x hx => ?_, fun hs => ?_, fun hs => ?_, fun hs => ?_⟩
  · by_cases heq : x = .upval uv
    · subst heq
      rw [Fresh, Dead, State.white, hself]
      rcases hm with ⟨rfl, hfresh⟩ | ⟨-, rfl, hn, -⟩
      · exact .inl hfresh
      · exact .inr (.inr (iswhite_gray2black.trans hn))
    · rw [Fresh, Dead, State.white, hother x heq]
      exact h.colour x (hperm.mem_iff.mp hx)
  · rw [hrefs] at hc
    refine halive c (h.live x (hperm.mem_iff.mp hx) (fun hd' => ?_) c hc)
    by_cases heq : x = .upval uv
    · exact hnotdead (heq ▸ hd')
    · rw [Dead, hother x heq] at hd
      exact hd hd'
  · rw [hother (.userdata u) (by simp)]
    exact h.finalized u hu (hdead _ hd)
  · have hne : g.gcstate ≠ .GCSpropagate := fun heq => by
      rcases hs with hs | hs
      · exact absurd (heq.symm.trans hs) (by decide)
      · exact absurd (heq.symm.trans hs) (by decide)
    exact (h.resting hs x (hperm.mem_iff.mp hx)).imp_left (hsame hne x)
  · have hmarks := h.marks hs
    refine ⟨fun x hx hd => hmarks.alive x (hperm.mem_iff.mp hx) (hdead x hd),
      hf.phase_relinked hl hmarks.phase ?_, ?_, fun c hc => ?_⟩
    · rcases hm with ⟨heq, hfresh⟩ | ⟨-, heq, hn, hdone⟩
      · exact .inl ⟨heq, heq ▸ hfresh.white h.onewhite⟩
      · exact .inr ⟨heq, hn, hdone⟩
    · exact (congrArg iswhite (hother (.thread g.mainthread) (by simp))).trans hmarks.main
    · have hc' := hmarks.registry c hc
      by_cases heq : c = .upval uv
      · subst heq
        obtain ⟨v, -, hval⟩ := mem_gcvalues.mp hc
        exact absurd rfl (gcvalue_ne_upval hval uv)
      · rw [State.white, hother c heq]
        exact hc'
  · obtain ⟨hcursor, hall⟩ := h.sweepstring hs
    exact ⟨hcursor, fun i hi ts hts => hsame (by rw [show g.gcstate = _ from hs]; decide) _ (hall i hi ts hts)⟩
  · have hsw := h.sweeps hs
    have hkeep := hsame (by rw [show g.gcstate = _ from hs]; decide)
    have hcursor : ∀ y, g.sweepgc = some y → y ≠ .upval uv := by
      rintro y hy rfl
      rcases hsw.cursor _ hy with hin | ⟨u, -, heq⟩
      · exact hf.notMem_mainlist hl hin
      · cases heq
    have hunswept : ∀ x, x ∈ g.unswept → x ∈ (relinked th uv l m g).unswept := fun x hx =>
      mem_unswept_link hcursor rfl rfl rfl rfl hx
    refine ⟨fun ts hts => hkeep _ (hsw.strings ts hts), fun x hx => ?_, fun x hx hout => ?_,
      fun uv' huv th' level' hup hout => ?_⟩
    · exact (hsw.cursor x hx).imp_left fun hin => List.mem_cons_of_mem _ hin
    · refine hkeep x ?_
      rcases List.mem_cons.mp hx with rfl | hx
      · rcases hm with ⟨-, hfresh⟩ | ⟨hs', -⟩
        · exact hfresh
        · exact absurd (hs'.symm.trans hs) (by decide)
      · exact hsw.fresh x hx fun hun => hout (hunswept x hun)
    · obtain ⟨hdiff, hin⟩ := hl.uvhead_nodup.mem_erase_iff.mp huv
      have hopen : (relinked th uv l m g).heap.upval uv' = g.heap.upval uv' := Heap.upval_other _ _ hdiff
      rw [hopen] at hup
      exact hkeep _ (hsw.upvals uv' hin th' level' hup fun hun => hout (hunswept _ hun))

/-! ### Marking does not see where an upvalue is -/

theorem relinked_mark {x : GCObject} {f : BitVec 8 → BitVec 8} (hne : x ≠ .upval uv) :
    (relinked th uv l m g).mark x f = relinked th uv l m (g.mark x f) := by
  have hmarked : (relinked th uv l m g).marked x = g.marked x := Function.update_of_ne hne ..
  rw [State.mark, hmarked]
  simp only [relinked, State.mark]
  rw [Function.update_comm hne.symm]

theorem white_relinked {x : GCObject} (hne : x ≠ .upval uv) : (relinked th uv l m g).white x = g.white x :=
  congrArg iswhite (Function.update_of_ne hne ..)

theorem marktable_relinked (t : Nat) : marktable t (relinked th uv l m g) = relinked th uv l m (marktable t g) := by
  have hne : GCObject.table t ≠ .upval uv := by simp
  rw [marktable, marktable, white_relinked hne, markgray, relinked_mark hne]
  split_ifs <;> rfl

theorem markmetatable_relinked (mt : Option Nat) :
    markmetatable mt (relinked th uv l m g) = relinked th uv l m (markmetatable mt g) := by
  cases mt with
  | none => rfl
  | some t => exact marktable_relinked t

theorem markplain_relinked {x : GCObject} (hne : ∀ uv, x ≠ .upval uv) :
    markplain (relinked th uv l m g) x = relinked th uv l m (markplain g x) := by
  have hgray : markgray x (relinked th uv l m g) = relinked th uv l m (markgray x g) := by
    rw [markgray, relinked_mark (hne uv)]
    rfl
  cases x with
  | string ts => exact relinked_mark (by simp)
  | userdata u =>
    simp only [markplain, markudata]
    rw [relinked_mark (hne uv), markmetatable_relinked, marktable_relinked]
    rfl
  | upval uv' => exact absurd rfl (hne uv')
  | function cl => exact hgray
  | table t => exact hgray
  | thread th => exact hgray
  | proto q => exact hgray

/-- The barrier of a closed upvalue that is black marks its value. -/
theorem luaCBarrier_relinked (v : TValue) (hs : g.gcstate = .GCSpropagate) (hb : isblack m = true) :
    luaCBarrier (.upval uv) v (relinked th uv l m g) = relinked th uv l m (markvalue v g) := by
  have hself : (relinked th uv l m g).marked (.upval uv) = m := Function.update_self ..
  have hblack : (relinked th uv l m g).black (.upval uv) = true := (congrArg isblack hself).trans hb
  have hstate : (relinked th uv l m g).gcstate = .GCSpropagate := hs
  rw [luaCBarrier, markvalue]
  cases hv : v.gcvalue with
  | none => rfl
  | some x =>
    simp only
    rw [luaCObjbarrier, luaCBarrierf, hblack, Bool.and_true, white_relinked (gcvalue_ne_upval hv uv), if_pos hstate,
      markplain_eq (gcvalue_ne_upval hv), markplain_relinked (gcvalue_ne_upval hv)]
    split_ifs <;> rfl

/-- The value of an upvalue does not depend on the lists of open ones. -/
theorem upvalue_setopenupval (th uv : Nat) (l : List Nat) (g : State) :
    (setopenupval th l g).heap.upvalue uv = g.heap.upvalue uv := by
  have hthread : ∀ th', ((setopenupval th l g).heap.thread th').stack = (g.heap.thread th').stack := by
    intro th'
    by_cases heq : th' = th
    · subst heq
      have hself : (setopenupval th' l g).heap.thread th' = { g.heap.thread th' with openupval := l } :=
        Heap.thread_self ..
      rw [hself]
    · have hother : (setopenupval th l g).heap.thread th' = g.heap.thread th' := Heap.thread_other _ _ heq
      rw [hother]
  have hup : (setopenupval th l g).heap.upval uv = g.heap.upval uv := rfl
  rw [Heap.upvalue, Heap.upvalue, hup]
  cases g.heap.upval uv with
  | closed v => rfl
  | opened th' level =>
    simp only
    rw [hthread]

theorem refs_setopenupval (th : Nat) (l : List Nat) (g : State) (x : GCObject) :
    refs (setopenupval th l g).heap x = refs g.heap x := by
  cases x with
  | thread th' =>
    rw [refs, refs]
    by_cases heq : th' = th
    · subst heq
      have hself : (setopenupval th' l g).heap.thread th' = { g.heap.thread th' with openupval := l } :=
        Heap.thread_self ..
      rw [hself]
      rfl
    · have hother : (setopenupval th l g).heap.thread th' = g.heap.thread th' := Heap.thread_other _ _ heq
      rw [hother]
  | upval uv => rw [refs, refs, upvalue_setopenupval]
  | string ts => rfl
  | userdata u => rfl
  | function cl => rfl
  | table t => rfl
  | proto q => rfl

/-- An open upvalue that is dead is freed. -/
theorem First.freed (hf : First th uv level l g) (hl : Lists g) (hd : Dead g (.upval uv)) :
    Freed g (luaFFreeupval uv (setopenupval th l g)) := by
  have hthread : (setopenupval th l g).heap.thread th = { g.heap.thread th with openupval := l } := Heap.thread_self ..
  have hthread' : ∀ th', th' ≠ th → (setopenupval th l g).heap.thread th' = g.heap.thread th' := fun th' hne =>
    Heap.thread_other _ _ hne
  have hperm : g.objects.Perm (.upval uv :: (luaFFreeupval uv (setopenupval th l g)).objects) := by
    have herase := (List.perm_cons_erase (hf.uvhead hl)).map GCObject.upval
    have hcount := List.perm_iff_count.mp herase
    refine List.perm_iff_count.mpr fun x => ?_
    have hx := hcount x
    simp only [State.objects, State.mainlist, luaFFreeupval, setopenupval, List.map_cons, List.count_append,
      List.count_cons] at hx ⊢
    omega
  have hnodup := hperm.nodup_iff.mp hl.nodup
  refine ⟨rfl, refs_setopenupval th l g, rfl, (List.nodup_cons.mp hnodup).2, fun x hx => ?_, fun x hx => ?_,
    fun _ hx => hx, fun _ hu => hu, fun uv' huv => ?_, fun th' hth => ?_, fun _ _ hts => hts, fun _ _ hx => hx,
    fun _ _ hx => hx⟩
  · exact hperm.mem_iff.mpr (List.mem_cons_of_mem _ hx)
  · rcases List.mem_cons.mp (hperm.mem_iff.mp hx.1) with rfl | hin
    · exact absurd hd hx.2
    · exact hin
  · obtain ⟨hdiff, hin⟩ := hl.uvhead_nodup.mem_erase_iff.mp huv
    refine ⟨hin, fun th' level' hopen => ?_⟩
    obtain ⟨th'', level'', hopen', hth, hmem⟩ := hl.uvhead uv' hin
    rw [hopen] at hopen'
    cases hopen'
    refine ⟨?_, ?_⟩
    · rcases List.mem_cons.mp (hperm.mem_iff.mp hth) with heq | hin'
      · cases heq
      · exact hin'
    · change uv' ∈ ((setopenupval th l g).heap.thread th').openupval
      by_cases heq : th' = th
      · subst heq
        rw [hf.openupval] at hmem
        rw [hthread]
        exact (List.mem_cons.mp hmem).resolve_left hdiff
      · rw [hthread' th' heq]
        exact hmem
  · change ((setopenupval th l g).heap.thread th').openupval.Nodup ∧
      ∀ uv' ∈ ((setopenupval th l g).heap.thread th').openupval, _ ∧ uv' ∈ g.uvhead.erase uv
    obtain ⟨hnodup', hall⟩ := hl.openupval th' (hperm.mem_iff.mpr (List.mem_cons_of_mem _ hth))
    by_cases heq : th' = th
    · subst heq
      rw [hf.openupval] at hnodup' hall
      rw [hthread]
      refine ⟨(List.nodup_cons.mp hnodup').2, fun uv' huv => ⟨?_, ?_⟩⟩
      · rw [hf.openupval]
        exact List.mem_cons_of_mem _ huv
      · exact hl.uvhead_nodup.mem_erase_iff.mpr ⟨fun he => hf.notMem hl (he ▸ huv),
          (hall uv' (List.mem_cons_of_mem _ huv)).1⟩
    · rw [hthread' th' heq]
      refine ⟨hnodup', fun uv' huv => ⟨huv, ?_⟩⟩
      obtain ⟨hin, level', hopen⟩ := hall uv' huv
      refine hl.uvhead_nodup.mem_erase_iff.mpr ⟨fun he => ?_, hin⟩
      rw [he, hf.opened] at hopen
      cases hopen
      exact heq rfl

/-- `luaC_linkupval` on an upvalue that was open. -/
theorem First.closed_inv (hf : First th uv level l g) (h : Inv g) (hd : ¬ Dead g (.upval uv)) :
    Inv (luaCLinkupval uv { luaFFreeupval uv (setopenupval th l g) with
      heap := (setopenupval th l g).heap.setUpval uv (.closed (g.heap.upvalue uv)) }) := by
  have hin := hf.mem h.lists
  have hopened := h.lists.opened uv (hf.uvhead h.lists)
  have hbase : ({ luaFFreeupval uv (setopenupval th l g) with
      heap := (setopenupval th l g).heap.setUpval uv (.closed (g.heap.upvalue uv))
      rootgc := .upval uv :: g.rootgc } : State) = relinked th uv l (g.marked (.upval uv)) g := by
    rw [relinked, Function.update_eq_self]
    rfl
  have hvalue : ((setopenupval th l g).heap.setUpval uv (.closed (g.heap.upvalue uv))).upvalue uv = g.heap.upvalue uv := by
    rw [Heap.upvalue, Heap.upval_self]
  have hmarks : ∀ m' m'', (relinked th uv l m' g).mark (.upval uv) (fun _ => m'') = relinked th uv l m'' g := by
    intro m' m''
    simp only [State.mark, relinked, Function.update_idem]
  have hself : (relinked th uv l (g.marked (.upval uv)) g).marked (.upval uv) = g.marked (.upval uv) :=
    Function.update_self ..
  have hone : ∀ f : BitVec 8 → BitVec 8, (relinked th uv l (g.marked (.upval uv)) g).mark (.upval uv) f =
      relinked th uv l (f (g.marked (.upval uv))) g := fun f => by
    have heq := hmarks (g.marked (.upval uv)) (f (g.marked (.upval uv)))
    rw [State.mark] at heq
    rw [State.mark, hself]
    exact heq
  rw [luaCLinkupval]
  simp only [hvalue]
  change Inv (if isgray (g.marked (.upval uv)) = true then
      if g.gcstate = .GCSpropagate then luaCBarrier (.upval uv) (g.heap.upvalue uv)
        (State.mark { luaFFreeupval uv (setopenupval th l g) with
          heap := (setopenupval th l g).heap.setUpval uv (.closed (g.heap.upvalue uv))
          rootgc := .upval uv :: g.rootgc } (.upval uv) gray2black)
      else State.mark { luaFFreeupval uv (setopenupval th l g) with
          heap := (setopenupval th l g).heap.setUpval uv (.closed (g.heap.upvalue uv))
          rootgc := .upval uv :: g.rootgc } (.upval uv) (makewhite g.currentwhite)
    else { luaFFreeupval uv (setopenupval th l g) with
      heap := (setopenupval th l g).heap.setUpval uv (.closed (g.heap.upvalue uv))
      rootgc := .upval uv :: g.rootgc })
  rw [hbase, hone, hone]
  split_ifs with hgray hs
  · -- The value is marked, and then the upvalue is closed.
    have hn : g.white (.upval uv) = false := by
      have hboth := Bool.and_eq_true_iff.mp hgray
      simpa [State.white] using hboth.2
    rw [luaCBarrier_relinked _ hs isblack_gray2black]
    have hm := h.marks hs
    have hmarks' : MarksRefs (· ∈ g.objects) g (markvalue (g.heap.upvalue uv) g) (gcvalues [g.heap.upvalue uv]) :=
      marks_value hm.phase.closed fun o ho => hm.phase.closed _ hin o
        (mem_gcvalues.mpr ⟨_, List.mem_singleton_self _, ho⟩)
    have hinv := h.marches hs (hm.phase.marked hmarks'.1) hmarks'.1.marches
    have hkept := hmarks'.1.kept _ hn
    have hheap := hmarks'.1.heap
    have hf' : First th uv level l (markvalue (g.heap.upvalue uv) g) := by
      refine ⟨?_, ?_, ?_⟩
      · rw [hmarks'.1.objects]
        exact hf.thread
      · rw [hheap]
        exact hf.openupval
      · rw [hheap]
        exact hf.opened
    have hstate : (markvalue (g.heap.upvalue uv) g).gcstate = .GCSpropagate := by
      rw [hmarks'.1.same]
      exact hs
    refine hf'.relinked_inv hinv (.inr ⟨hstate, by rw [hkept], hmarks'.1.nonwhite hn, ?_⟩)
    rw [hheap]
    exact hmarks'.2
  · have hw := h.whiten hd hs
    have hf' : First th uv level l (g.whiten (.upval uv)) := ⟨hf.thread, hf.openupval, hf.opened⟩
    have hmark : (g.whiten (.upval uv)).marked (.upval uv) = makewhite g.currentwhite (g.marked (.upval uv)) :=
      Function.update_self ..
    have heq : relinked th uv l (makewhite g.currentwhite (g.marked (.upval uv))) g =
        relinked th uv l ((g.whiten (.upval uv)).marked (.upval uv)) (g.whiten (.upval uv)) := by
      rw [hmark]
      simp only [relinked, State.whiten, State.mark, Function.update_idem]
    rw [heq]
    refine hf'.relinked_inv hw (.inl ⟨rfl, ?_⟩)
    rw [Fresh, hmark]
    exact isfresh_makewhite h.onewhite
  · refine hf.relinked_inv h (.inl ⟨rfl, h.fresh_of_white hin hd ?_⟩)
    rw [isgray, show isblack (g.marked (.upval uv)) = false from hopened] at hgray
    simpa [State.white] using hgray

/-- `luaF_close` on the first open upvalue of a thread. -/
theorem closeupval_inv (h : Inv g) (hf : First th uv level l g) : Inv (closeupval th uv l g) := by
  have hvalue : (luaFFreeupval uv (setopenupval th l g)).heap.upvalue uv = g.heap.upvalue uv :=
    upvalue_setopenupval th uv l g
  have hin := hf.mem h.lists
  rw [closeupval]
  simp only [hvalue]
  split_ifs with hd
  · have hdead := (h.isdead_iff hin).mp hd
    exact (hf.freed h.lists hdead).inv h fun hs => (h.marks hs).alive _ hin hdead
  · exact hf.closed_inv h fun hdead => hd ((h.isdead_iff hin).mpr hdead)

end Relinked

end UgmeeLua.Gc

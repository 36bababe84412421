import UgmeeLua.Lgc.Closing
import Mathlib.Data.List.Basic

namespace UgmeeLua.Gc

/-! ## The sweep of strings -/

section Strings

variable {g g' : State} {o c : GCObject}

/-- The state of the collector changes. -/
theorem Inv.restate {s : GCState} {n : Nat} {y : Option GCObject} (h : Inv g)
    (hresting : s = .GCSpause ∨ s = .GCSfinalize → ∀ o ∈ g.objects, Fresh g o ∨ Pending g o)
    (hmarks : s ≠ .GCSpropagate)
    (hstring : s = .GCSsweepstring → y = none ∧ ∀ i < n, ∀ ts ∈ g.strt.getD i [], Fresh g (.string ts))
    (hsweeps : s = .GCSsweep → Sweeps { g with gcstate := s, sweepstrgc := n, sweepgc := y }) :
    Inv { g with gcstate := s, sweepstrgc := n, sweepgc := y } :=
  ⟨⟨h.lists.nodup, h.lists.rootgc, h.lists.uvhead, h.lists.openupval, h.lists.opened, h.lists.onewhite, h.lists.fixed,
    h.lists.tmudata⟩, h.colour, h.live, h.roots, h.finalized, hresting, fun hs => absurd hs hmarks, hstring, hsweeps⟩

/-- Objects become white, one after the other. -/
theorem whiten_all {α : Type} {f : α → GCObject} {l : List α} (h : Inv g) (hs : g.gcstate ≠ .GCSpropagate)
    (hl : ∀ x ∈ l, ¬ Dead g (f x) ∨ refs g.heap (f x) = []) :
    let g' := marksAll (fun x g => g.whiten (f x)) l g
    Inv g' ∧ g' = { g with marked := g'.marked } ∧ (∀ x ∈ l, Fresh g' (f x)) ∧
      (∀ c, Fresh g c → Fresh g' c) ∧ (∀ c, (∀ x ∈ l, c ≠ f x) → g'.marked c = g.marked c) := by
  induction l generalizing g with
  | nil => exact ⟨h, rfl, fun _ hx => (List.not_mem_nil hx).elim, fun _ hc => hc, fun _ _ => rfl⟩
  | cons x l ih =>
    have hr := remarked_whiten h.onewhite (f x)
    have h1 : Inv (g.whiten (f x)) := by
      refine h.remark hr (fun hd c hc => ?_) fun hs' => absurd hs' hs
      rcases hl x List.mem_cons_self with hnot | hnone
      · exact absurd hd hnot
      · rw [hnone] at hc
        exact (List.not_mem_nil hc).elim
    obtain ⟨h2, hsame, hfresh, hkeep, hother⟩ := ih (g := g.whiten (f x)) h1 hs fun x' hx' =>
      (hl x' (List.mem_cons_of_mem _ hx')).imp_left fun hd hd' => hd (hr.was_dead hd')
    refine ⟨h2, ?_, fun x' hx' => ?_, fun c hc => hkeep c (hr.keeps_fresh hc), fun c hc => ?_⟩
    · change marksAll (fun x g => g.whiten (f x)) l (g.whiten (f x)) = _
      rw [hsame]
      rfl
    · rcases List.mem_cons.mp hx' with rfl | hx'
      · refine hkeep _ ?_
        rw [Fresh, hr.self]
        exact isfresh_makewhite h.onewhite
      · exact hfresh x' hx'
    · have hlast := hother c fun x' hx' => hc x' (List.mem_cons_of_mem _ hx')
      exact hlast.trans (hr.other (hc x List.mem_cons_self))

theorem mem_flatten_of_getD {α : Type} {ls : List (List α)} {i : Nat} {x : α} (h : x ∈ ls.getD i []) :
    x ∈ ls.flatten := by
  rw [List.getD_eq_getElem?_getD] at h
  cases hi : ls[i]? with
  | none =>
    rw [hi] at h
    cases h
  | some l =>
    rw [hi] at h
    exact List.mem_flatten_of_mem (List.mem_of_getElem? hi) h

theorem getD_of_mem_flatten {α : Type} {ls : List (List α)} {x : α} (h : x ∈ ls.flatten) :
    ∃ i < ls.length, x ∈ ls.getD i [] := by
  obtain ⟨l, hl, hx⟩ := List.mem_flatten.mp h
  obtain ⟨i, hi, rfl⟩ := List.getElem_of_mem hl
  refine ⟨i, hi, ?_⟩
  rw [List.getD_eq_getElem _ _ hi]
  exact hx

theorem getD_set {α : Type} {ls : List (List α)} {i j : Nat} {l : List α} (hi : i < ls.length) :
    (ls.set i l).getD j [] = if i = j then l else ls.getD j [] := by
  rw [List.getD_eq_getElem?_getD, List.getD_eq_getElem?_getD]
  split_ifs with hij
  · rw [← hij, List.getElem?_set_self hi, Option.getD_some]
  · rw [List.getElem?_set_ne hij]

theorem flatten_set_sublist {α : Type} {ls : List (List α)} {i : Nat} {l : List α} (h : l.Sublist (ls.getD i [])) :
    (ls.set i l).flatten.Sublist ls.flatten := by
  induction ls generalizing i with
  | nil => exact List.Sublist.refl _
  | cons l' ls ih =>
    cases i with
    | zero => exact List.Sublist.append h (List.Sublist.refl _)
    | succ i => exact List.Sublist.append (List.Sublist.refl _) (ih h)

theorem mem_of_flatten {ts : Nat} (h : ts ∈ g.strt.flatten) : GCObject.string ts ∈ g.objects :=
  mem_objects_iff.mpr (.inr (.inr (.inl ⟨ts, h, rfl⟩)))

/-- Dead strings leave their list. -/
theorem freed_strings (h : Inv g) {i : Nat} :
    Freed g { g with strt := g.strt.set i ((g.strt.getD i []).filter fun ts => g.survives (.string ts)) } := by
  have hsub : (g.strt.set i ((g.strt.getD i []).filter fun ts => g.survives (.string ts))).flatten.Sublist
      g.strt.flatten := flatten_set_sublist List.filter_sublist
  have hobjects : (State.objects { g with
      strt := g.strt.set i ((g.strt.getD i []).filter fun ts => g.survives (.string ts)) }).Sublist g.objects :=
    List.Sublist.append (List.Sublist.refl _) (List.Sublist.append (hsub.map _) (List.Sublist.refl _))
  have halive : ∀ x, Alive g x → x ∈ State.objects { g with
      strt := g.strt.set i ((g.strt.getD i []).filter fun ts => g.survives (.string ts)) } := by
    intro x hx
    rcases mem_objects_iff.mp hx.1 with hr | hr | ⟨ts, hts, rfl⟩ | hr | hr
    · exact mem_objects_iff.mpr (.inl hr)
    · exact mem_objects_iff.mpr (.inr (.inl hr))
    · refine mem_objects_iff.mpr (.inr (.inr (.inl ⟨ts, ?_, rfl⟩)))
      obtain ⟨j, hj, hts⟩ := getD_of_mem_flatten hts
      by_cases hi : i < g.strt.length
      · refine mem_flatten_of_getD (i := j) ?_
        rw [getD_set hi]
        split_ifs with hij
        · subst hij
          exact List.mem_filter.mpr ⟨hts, h.survives_of_alive hx.1 hx.2⟩
        · exact hts
      · rw [List.set_eq_of_length_le (Nat.not_lt.mp hi)]
        exact mem_flatten_of_getD hts
    · exact mem_objects_iff.mpr (.inr (.inr (.inr (.inl hr))))
    · exact mem_objects_iff.mpr (.inr (.inr (.inr (.inr hr))))
  refine ⟨rfl, fun _ => rfl, rfl, h.lists.nodup.sublist hobjects, fun x hx => hobjects.subset hx, halive, fun _ hx => hx,
    fun _ hu => hu, fun uv huv => ⟨huv, fun th level hopen => ?_⟩, fun th hth => ?_, fun j ts hts => ?_, fun _ _ hx => hx,
    fun _ _ hx => hx⟩
  · obtain ⟨th', level', hopen', hth, hmem⟩ := h.lists.uvhead uv huv
    rw [hopen] at hopen'
    cases hopen'
    refine ⟨?_, hmem⟩
    rcases mem_objects_iff.mp hth with hr | hr | ⟨ts, -, hr⟩ | ⟨uv', -, hr⟩ | ⟨u, -, hr⟩
    · exact mem_objects_iff.mpr (.inl hr)
    · exact mem_objects_iff.mpr (.inr (.inl hr))
    · cases hr
    · cases hr
    · cases hr
  · obtain ⟨hnodup, hall⟩ := h.lists.openupval th (hobjects.subset hth)
    exact ⟨hnodup, fun uv huv => ⟨huv, (hall uv huv).1⟩⟩
  · by_cases hi : i < g.strt.length
    · rw [show State.strt _ = g.strt.set i _ from rfl, getD_set hi] at hts
      split_ifs at hts with hij
      · subst hij
        exact List.mem_of_mem_filter hts
      · exact hts
    · rw [show State.strt _ = g.strt.set i _ from rfl, List.set_eq_of_length_le (Nat.not_lt.mp hi)] at hts
      exact hts

/-- One list of strings is swept. -/
theorem sweepstring_inv (h : Inv g) (hs : g.gcstate = .GCSsweepstring) : Inv (singlestep g) := by
  have hne : g.gcstate ≠ .GCSpropagate := by
    rw [hs]
    decide
  obtain ⟨hcursor, hswept⟩ := h.sweepstring hs
  have hfreed := freed_strings h (i := g.sweepstrgc)
  have h1 := hfreed.inv h hne
  obtain ⟨h2, hsame, hfresh, hkeep, -⟩ := whiten_all (f := GCObject.string)
    (l := (g.strt.getD g.sweepstrgc []).filter fun ts => g.survives (.string ts)) h1 hne fun _ _ => .inr rfl
  have hcur : (sweepstrings g.sweepstrgc g).sweepgc = none := by
    rw [sweepstrings, hsame]
    exact hcursor
  have hcount : (sweepstrings g.sweepstrgc g).sweepstrgc = g.sweepstrgc := by
    rw [sweepstrings, hsame]
  have hstrt : (sweepstrings g.sweepstrgc g).strt = g.strt.set g.sweepstrgc
      ((g.strt.getD g.sweepstrgc []).filter fun ts => g.survives (.string ts)) := by
    rw [sweepstrings, hsame]
  have hall : ∀ i < g.sweepstrgc + 1, ∀ ts ∈ (sweepstrings g.sweepstrgc g).strt.getD i [],
      Fresh (sweepstrings g.sweepstrgc g) (.string ts) := by
    intro i hi ts hts
    rw [hstrt] at hts
    by_cases heq : i = g.sweepstrgc
    · subst heq
      by_cases hlt : g.sweepstrgc < g.strt.length
      · rw [getD_set hlt, if_pos rfl] at hts
        exact hfresh ts hts
      · rw [List.set_eq_of_length_le (Nat.not_lt.mp hlt), List.getD_eq_default _ _ (Nat.not_lt.mp hlt)] at hts
        exact (List.not_mem_nil hts).elim
    · have hold : ts ∈ g.strt.getD i [] := by
        rw [← hstrt] at hts
        have hsub := hfreed.strings i ts
        rw [hstrt] at hts
        exact hsub hts
      exact hkeep _ (hfreed.fresh_iff.mpr (hswept i (by omega) ts hold))
  have hstate : (sweepstrings g.sweepstrgc g).gcstate = .GCSsweepstring := by
    rw [sweepstrings, hsame]
    exact hs
  rw [singlestep]
  simp only [hs]
  change Inv (sweepstrings g.sweepstrgc g) at h2
  generalize sweepstrings g.sweepstrgc g = g1 at h2 hcur hall hstate
  split_ifs with hend
  · have hsweeps := h2.restate (s := .GCSsweep) (n := g.sweepstrgc + 1) (y := none) (fun hs' => by cases hs' <;> contradiction)
      (by simp) (by simp) fun _ => ⟨fun ts hts => ?_, (by simp), fun x hx hout => absurd hx hout, fun uv huv th level hopen hout => ?_⟩
    · rw [← hcur] at hsweeps
      exact hsweeps
    · obtain ⟨i, hi, hts⟩ := getD_of_mem_flatten hts
      exact hall i (Nat.lt_of_lt_of_le hi hend) ts hts
    · obtain ⟨th', level', hopen', hth, -⟩ := h2.lists.uvhead uv huv
      rw [show g1.heap.upval uv = .opened th level from hopen] at hopen'
      cases hopen'
      refine absurd ?_ hout
      rcases mem_objects_iff.mp hth with hr | hr | ⟨ts, -, hr⟩ | ⟨uv', -, hr⟩ | ⟨u, -, hr⟩
      · exact List.mem_append_left _ hr
      · rw [hr]
        exact List.mem_append_right _ List.mem_cons_self
      · cases hr
      · cases hr
      · cases hr
  · have hnext := h2.restate (s := .GCSsweepstring) (n := g.sweepstrgc + 1) (y := none)
      (fun hs' => by cases hs' <;> contradiction) (by simp) (fun _ => ⟨rfl, hall⟩) (by simp)
    rw [← hcur, ← hstate] at hnext
    exact hnext

end Strings

/-! ## The sweep of the list of all objects -/

section Objects

variable {g g' : State} {o c : GCObject} {th uv : Nat}

theorem Inv.not_dead_of_survives (h : Inv g) (ho : o ∈ g.objects) (hkind : ∀ ts, o ≠ .string ts)
    (hs : g.survives o = true) : ¬ Dead g o := by
  intro hd
  have hfix : testbit (g.marked o) FIXEDBIT = false := by
    refine eq_false_of_ne_true fun hfix => ?_
    rcases h.lists.fixed o ho hfix with ⟨ts, heq⟩ | heq
    · exact hkind ts heq
    · exact (h.roots o (heq ▸ List.mem_cons_self)).2 hd
  rw [State.survives, h.onewhite.survives_dead hd hfix] at hs
  cases hs

theorem marksAll_freeupval (l : List Nat) (g : State) :
    marksAll luaFFreeupval l g = { g with uvhead := g.uvhead.diff l } := by
  induction l generalizing g with
  | nil => rfl
  | cons uv l ih =>
    change marksAll luaFFreeupval l (luaFFreeupval uv g) = _
    rw [ih, List.diff_cons]
    rfl

/-- The dead open upvalues of a thread leave their lists. -/
theorem freed_openupval (h : Inv g) (hth : .thread th ∈ g.objects) :
    let l := (g.heap.thread th).openupval
    Freed g (setopenupval th (l.filter fun uv => g.survives (.upval uv))
      { g with uvhead := g.uvhead.diff (l.filter fun uv => !g.survives (.upval uv)) }) := by
  intro l
  let alive := l.filter fun uv => g.survives (.upval uv)
  let dead := l.filter fun uv => !g.survives (.upval uv)
  let g1 : State := { g with uvhead := g.uvhead.diff dead }
  have hthread : (setopenupval th alive g1).heap.thread th = { g.heap.thread th with openupval := alive } :=
    Heap.thread_self ..
  have hthread' : ∀ th', th' ≠ th → (setopenupval th alive g1).heap.thread th' = g.heap.thread th' := fun th' hne =>
    Heap.thread_other _ _ hne
  obtain ⟨hnodup, hall⟩ := h.lists.openupval th hth
  have hdiff : ∀ uv, uv ∈ g.uvhead.diff dead ↔ uv ∈ g.uvhead ∧ uv ∉ dead := fun uv =>
    h.lists.uvhead_nodup.mem_sdiff_iff
  have hsub : (setopenupval th alive g1).objects.Sublist g.objects :=
    List.Sublist.append (List.Sublist.refl _) (List.Sublist.append (List.Sublist.refl _)
      (List.Sublist.append ((List.diff_sublist _ _).map _) (List.Sublist.refl _)))
  have hkeep : ∀ x ∈ g.objects, (∀ uv ∈ dead, x ≠ .upval uv) → x ∈ (setopenupval th alive g1).objects := by
    intro x hx hnot
    rcases mem_objects_iff.mp hx with hr | hr | hr | ⟨uv, huv, rfl⟩ | hr
    · exact mem_objects_iff.mpr (.inl hr)
    · exact mem_objects_iff.mpr (.inr (.inl hr))
    · exact mem_objects_iff.mpr (.inr (.inr (.inl hr)))
    · exact mem_objects_iff.mpr (.inr (.inr (.inr (.inl ⟨uv, (hdiff uv).mpr ⟨huv, fun hd => hnot uv hd rfl⟩, rfl⟩))))
    · exact mem_objects_iff.mpr (.inr (.inr (.inr (.inr hr))))
  refine ⟨rfl, fun x => refs_setopenupval th alive g1 x, rfl, h.lists.nodup.sublist hsub, fun x hx => hsub.subset hx,
    fun x hx => hkeep x hx.1 fun uv huv heq => ?_, fun _ hx => hx, fun _ hu => hu, fun uv huv => ?_, fun th' hth' => ?_,
    fun _ _ hts => hts, fun _ _ hx => hx, fun _ _ hx => hx⟩
  · have hsurvives := h.survives_of_alive hx.1 hx.2
    rw [heq] at hsurvives
    simpa [hsurvives] using (List.mem_filter.mp huv).2
  · obtain ⟨hin, hnot⟩ := (hdiff uv).mp huv
    refine ⟨hin, fun th' level hopen => ?_⟩
    obtain ⟨th'', level', hopen', hth', hmem⟩ := h.lists.uvhead uv hin
    rw [hopen] at hopen'
    cases hopen'
    refine ⟨hkeep _ hth' (fun _ _ heq => by cases heq), ?_⟩
    by_cases heq : th' = th
    · subst heq
      change uv ∈ ((setopenupval th' alive g1).heap.thread th').openupval
      rw [hthread]
      refine List.mem_filter.mpr ⟨hmem, ?_⟩
      by_contra hns
      exact hnot (List.mem_filter.mpr ⟨hmem, by simp [eq_false_of_ne_true hns]⟩)
    · change uv ∈ ((setopenupval th alive g1).heap.thread th').openupval
      rw [hthread' th' heq]
      exact hmem
  · change ((setopenupval th alive g1).heap.thread th').openupval.Nodup ∧
      ∀ uv ∈ ((setopenupval th alive g1).heap.thread th').openupval, _ ∧ uv ∈ g.uvhead.diff dead
    by_cases heq : th' = th
    · subst heq
      rw [hthread]
      refine ⟨hnodup.filter _, fun uv huv => ?_⟩
      obtain ⟨hin, hsurvives⟩ := List.mem_filter.mp huv
      refine ⟨hin, (hdiff uv).mpr ⟨(hall uv hin).1, fun hd => ?_⟩⟩
      simpa [hsurvives] using (List.mem_filter.mp hd).2
    · rw [hthread' th' heq]
      obtain ⟨hnodup', hall'⟩ := h.lists.openupval th' (hsub.subset hth')
      refine ⟨hnodup', fun uv huv => ⟨huv, (hdiff uv).mpr ⟨(hall' uv huv).1, fun hd => ?_⟩⟩⟩
      obtain ⟨level, hopen⟩ := (hall uv (List.mem_of_mem_filter hd)).2
      obtain ⟨level', hopen'⟩ := (hall' uv huv).2
      rw [hopen] at hopen'
      cases hopen'
      exact heq rfl

/-- What the sweep of the open upvalues of a thread leaves. -/
structure UpvalsSwept (th : Nat) (g g' : State) : Prop where
  inv : Inv g'
  same : g' = { g with heap := g'.heap, marked := g'.marked, uvhead := g'.uvhead }
  keeps : ∀ c, Fresh g c → Fresh g' c
  other : ∀ c, (∀ uv, c ≠ .upval uv) → g'.marked c = g.marked c
  fresh : ∀ uv ∈ (g'.heap.thread th).openupval, Fresh g' (.upval uv)
  objects : ∀ c ∈ g.objects, (∀ uv, c ≠ .upval uv) → c ∈ g'.objects

theorem sweepopenupval_inv (h : Inv g) (hs : g.gcstate ≠ .GCSpropagate) (hth : .thread th ∈ g.objects) :
    UpvalsSwept th g (sweepopenupval th g) := by
  have hfreed := freed_openupval h hth
  have h1 := hfreed.inv h hs
  have heq : sweepopenupval th g = marksAll (fun uv g => g.whiten (.upval uv))
      ((g.heap.thread th).openupval.filter fun uv => g.survives (.upval uv))
      (setopenupval th ((g.heap.thread th).openupval.filter fun uv => g.survives (.upval uv))
        { g with uvhead := g.uvhead.diff ((g.heap.thread th).openupval.filter fun uv => !g.survives (.upval uv)) }) := by
    rw [sweepopenupval]
    simp only [marksAll_freeupval]
  have hlive : ∀ uv ∈ (g.heap.thread th).openupval.filter fun uv => g.survives (.upval uv),
      ¬ Dead g (.upval uv) := by
    intro uv huv
    obtain ⟨hin, hsurvives⟩ := List.mem_filter.mp huv
    refine h.not_dead_of_survives ?_ (by simp) hsurvives
    exact mem_objects_iff.mpr (.inr (.inr (.inr (.inl ⟨uv, ((h.lists.openupval th hth).2 uv hin).1, rfl⟩))))
  obtain ⟨h2, hsame, hfresh, hkeep, hother⟩ := whiten_all (f := GCObject.upval) h1 hs fun uv huv =>
    .inl fun hd => hlive uv huv (hfreed.dead_iff.mp hd)
  rw [← heq] at h2 hsame hfresh hkeep hother
  have hopen : ((sweepopenupval th g).heap.thread th).openupval =
      (g.heap.thread th).openupval.filter fun uv => g.survives (.upval uv) := by
    have hheap := congrArg (fun x : State => (x.heap.thread th).openupval) hsame
    refine hheap.trans ?_
    exact congrArg Thread.openupval (Heap.thread_self ..)
  refine ⟨h2, ?_, fun c hc => hkeep c (hfreed.fresh_iff.mpr hc), fun c hc => hother c fun uv _ => hc uv,
    fun uv huv => hfresh uv (hopen ▸ huv), fun c hc hnot => ?_⟩
  · rw [hsame]
    rfl
  · rw [hsame]
    rcases mem_objects_iff.mp hc with hr | hr | hr | ⟨uv, -, rfl⟩ | hr
    · exact mem_objects_iff.mpr (.inl hr)
    · exact mem_objects_iff.mpr (.inr (.inl hr))
    · exact mem_objects_iff.mpr (.inr (.inr (.inl hr)))
    · exact absurd rfl (hnot uv)
    · exact mem_objects_iff.mpr (.inr (.inr (.inr (.inr hr))))

/-- What `luaF_close` leaves as it was, outside of the mark phase. -/
structure Closed1 (th : Nat) (l : List Nat) (g g' : State) : Prop where
  same : g' = { g with heap := g'.heap, marked := g'.marked, rootgc := g'.rootgc, uvhead := g'.uvhead }
  openupval : (g'.heap.thread th).openupval = l
  other : ∀ c, (∀ uv, c ≠ .upval uv) → g'.marked c = g.marked c
  rootgc : ∀ c ∈ g.rootgc, c ∈ g'.rootgc

theorem Closed1.trans {l l' : List Nat} {g'' : State} (h : Closed1 th l g g') (h' : Closed1 th l' g' g'') :
    Closed1 th l' g g'' :=
  ⟨by rw [h'.same, h.same], h'.openupval, fun c hc => (h'.other c hc).trans (h.other c hc),
    fun c hc => h'.rootgc c (h.rootgc c hc)⟩

/-- An upvalue that is closed, in the list of all objects. -/
def linked (th uv : Nat) (l : List Nat) (g : State) : State :=
  { luaFFreeupval uv (setopenupval th l g) with
    heap := (setopenupval th l g).heap.setUpval uv (.closed ((setopenupval th l g).heap.upvalue uv))
    rootgc := .upval uv :: g.rootgc }

/-- `luaF_close` outside of the mark phase: there is no barrier. -/
theorem closeupval_eq {l : List Nat} (hs : g.gcstate ≠ .GCSpropagate) :
    closeupval th uv l g =
      if isdead g.currentwhite (g.marked (.upval uv)) then luaFFreeupval uv (setopenupval th l g)
      else if isgray (g.marked (.upval uv)) then (linked th uv l g).whiten (.upval uv) else linked th uv l g := by
  have hlink : luaCLinkupval uv { luaFFreeupval uv (setopenupval th l g) with
      heap := (setopenupval th l g).heap.setUpval uv (.closed ((setopenupval th l g).heap.upvalue uv)) } =
      if isgray (g.marked (.upval uv)) then
        if g.gcstate = .GCSpropagate then luaCBarrier (.upval uv) ((linked th uv l g).heap.upvalue uv)
          ((linked th uv l g).mark (.upval uv) gray2black)
        else (linked th uv l g).whiten (.upval uv)
      else linked th uv l g := rfl
  rw [if_neg hs] at hlink
  rw [← hlink]
  rfl

theorem closeupval_rest (th uv : Nat) (l : List Nat) (hs : g.gcstate ≠ .GCSpropagate) : Closed1 th l g (closeupval th uv l g) := by
  have hopen : ((setopenupval th l g).heap.thread th).openupval = l := congrArg Thread.openupval (Heap.thread_self ..)
  rw [closeupval_eq hs]
  split_ifs
  · exact ⟨rfl, hopen, fun _ _ => rfl, fun _ hc => hc⟩
  · exact ⟨rfl, hopen, fun c hc => Function.update_of_ne (hc uv) .., fun _ hc => List.mem_cons_of_mem _ hc⟩
  · exact ⟨rfl, hopen, fun _ _ => rfl, fun _ hc => List.mem_cons_of_mem _ hc⟩

/-- Closing upvalues does not see which threads are in the list of all objects. -/
theorem closeupval_unlink {l : List Nat} {th' : Nat} (hs : g.gcstate ≠ .GCSpropagate) :
    closeupval th uv l (unlink (.thread th') g) = unlink (.thread th') (closeupval th uv l g) := by
  have herase : (GCObject.upval uv :: g.rootgc).erase (.thread th') = .upval uv :: g.rootgc.erase (.thread th') :=
    List.erase_cons_tail (by simp)
  have hlinked : linked th uv l (unlink (.thread th') g) = unlink (.thread th') (linked th uv l g) := by
    change linked th uv l { g with rootgc := g.rootgc.erase (.thread th') } =
      { linked th uv l g with rootgc := (GCObject.upval uv :: g.rootgc).erase (.thread th') }
    rw [herase]
    rfl
  rw [closeupval_eq hs, closeupval_eq (g := unlink (.thread th') g) hs, hlinked]
  change (if isdead g.currentwhite (g.marked (.upval uv)) = true then _
    else if isgray (g.marked (.upval uv)) = true then _ else _) = _
  split_ifs
  · rfl
  · rfl
  · rfl

theorem closeall_unlink {l : List Nat} {th' : Nat} (hs : g.gcstate ≠ .GCSpropagate) :
    closeall th l (unlink (.thread th') g) = unlink (.thread th') (closeall th l g) := by
  induction l generalizing g with
  | nil => rfl
  | cons uv l ih =>
    have hrest := closeupval_rest th uv l hs
    rw [closeall, closeall, closeupval_unlink hs]
    refine ih ?_
    rw [hrest.same]
    exact hs

theorem closeall_inv {l : List Nat} (h : Inv g) (hs : g.gcstate ≠ .GCSpropagate) (hth : .thread th ∈ g.mainlist)
    (hopen : (g.heap.thread th).openupval = l) : Inv (closeall th l g) ∧ Closed1 th [] g (closeall th l g) := by
  induction l generalizing g with
  | nil => exact ⟨h, rfl, hopen, fun _ _ => rfl, fun _ hc => hc⟩
  | cons uv l ih =>
    have hin : GCObject.thread th ∈ g.objects := List.mem_append_left _ hth
    obtain ⟨level, hup⟩ := ((h.lists.openupval th hin).2 uv (hopen ▸ List.mem_cons_self)).2
    have h1 := closeupval_inv h ⟨hin, hopen, hup⟩
    have hrest := closeupval_rest th uv l hs
    have hs1 : (closeupval th uv l g).gcstate ≠ .GCSpropagate := by
      rw [hrest.same]
      exact hs
    have hth1 : GCObject.thread th ∈ (closeupval th uv l g).mainlist := by
      rw [hrest.same]
      rcases List.mem_append.mp hth with hr | hr
      · exact List.mem_append_left _ (hrest.rootgc _ hr)
      · exact List.mem_append_right _ hr
    obtain ⟨h2, hrest2⟩ := ih h1 hs1 hth1 hrest.openupval
    exact ⟨h2, hrest.trans hrest2⟩

/-! ### The place of the sweep -/

theorem following_split {x : GCObject} {l rest : List GCObject} (hnodup : l.Nodup) (h : following x l = o :: rest) :
    following o l = rest := by
  induction l with
  | nil => cases h
  | cons a l ih =>
    obtain ⟨hnot, hnodup⟩ := List.nodup_cons.mp hnodup
    by_cases ha : x = a
    · subst ha
      rw [following, List.dropWhile_cons_of_neg (by simp), List.tail_cons] at h
      subst h
      have hne : o ≠ x := fun heq => hnot (heq ▸ List.mem_cons_self)
      rw [following_cons hne, following, List.dropWhile_cons_of_neg (by simp), List.tail_cons]
    · rw [following_cons ha] at h
      have hrest := ih hnodup h
      have hne : o ≠ a := fun heq => by
        have hmem : o ∈ following x l := h ▸ List.mem_cons_self
        exact hnot (heq ▸ (List.dropWhile_sublist _).subset (List.mem_of_mem_tail hmem))
      rwa [following_cons hne]

theorem mem_of_following {x y : GCObject} {l : List GCObject} (h : x ∈ following y l) : x ∈ l :=
  (List.dropWhile_sublist _).subset (List.mem_of_mem_tail h)

theorem following_append_ne {x : GCObject} {l l' : List GCObject} (hx : x ∈ l) (hne : l' ≠ []) :
    following x (l ++ l') ≠ [] := by
  induction l with
  | nil => cases hx
  | cons a l ih =>
    rw [List.cons_append]
    by_cases ha : x = a
    · subst ha
      rw [following, List.dropWhile_cons_of_neg (by simp), List.tail_cons]
      exact List.append_ne_nil_of_right_ne_nil _ hne
    · rw [following_cons ha]
      exact ih ((List.mem_cons.mp hx).resolve_left ha)

theorem following_erase {x y : GCObject} {l : List GCObject} (hx : x ≠ o) (hy : y ≠ o) (h : x ∈ following y l) :
    x ∈ following y (l.erase o) := by
  induction l with
  | nil => exact h
  | cons a l ih =>
    by_cases ha : y = a
    · subst ha
      rw [List.erase_cons_tail (by simpa using hy)]
      rw [following, List.dropWhile_cons_of_neg (by simp), List.tail_cons] at h ⊢
      exact (List.mem_erase_of_ne hx).mpr h
    · rw [following_cons ha] at h
      by_cases ho : a = o
      · subst ho
        rw [List.erase_cons_head]
        exact h
      · rw [List.erase_cons_tail (by simpa using ho), following_cons ha]
        exact ih h

/-- The object that is swept next: the others that are to be swept follow it, or it waits for its finalizer. -/
theorem swept_cases (h : Inv g) (ho : g.swept = some o) :
    (o ∈ g.mainlist ∧ g.sweepgc ≠ some o ∧ ∀ x ∈ g.unswept, x = o ∨ x ∈ following o g.mainlist) ∨
      (Pending g o ∧ g.unswept = g.udata.map .userdata) := by
  have hnodup : g.mainlist.Nodup := (List.nodup_append.mp h.lists.nodup).1
  rw [State.swept] at ho
  cases hcur : g.sweepgc with
  | none =>
    rw [hcur] at ho
    obtain ⟨rest, hrest⟩ : ∃ rest, g.mainlist = o :: rest := List.head?_eq_some_iff.mp ho
    refine .inl ⟨hrest ▸ List.mem_cons_self, (by simp), fun x hx => ?_⟩
    rw [State.unswept, hcur, hrest] at hx
    rw [hrest, following, List.dropWhile_cons_of_neg (by simp), List.tail_cons]
    exact List.mem_cons.mp hx
  | some y =>
    rw [hcur] at ho
    simp only at ho
    by_cases hin : y ∈ g.mainlist
    · rw [if_pos hin] at ho
      obtain ⟨rest, hrest⟩ : ∃ rest, following y g.mainlist = o :: rest := List.head?_eq_some_iff.mp ho
      have hfollow := following_split hnodup hrest
      refine .inl ⟨mem_of_following (hrest ▸ List.mem_cons_self), fun heq => ?_, fun x hx => ?_⟩
      · cases heq
        rw [hfollow] at hrest
        exact absurd (congrArg List.length hrest) (by simp)
      · rw [State.unswept, hcur] at hx
        simp only at hx
        rw [if_pos hin, hrest] at hx
        rw [hfollow]
        exact List.mem_cons.mp hx
    · rw [if_neg hin] at ho
      refine .inr ⟨?_, ?_⟩
      · have hmem : o ∈ (g.tmudata.map GCObject.userdata ++ g.tmudata.map GCObject.userdata) :=
          mem_of_following (List.mem_of_mem_head? ho)
        rcases List.mem_append.mp hmem with hmem | hmem
        · obtain ⟨u, hu, rfl⟩ := List.mem_map.mp hmem
          exact ⟨u, hu, rfl⟩
        · obtain ⟨u, hu, rfl⟩ := List.mem_map.mp hmem
          exact ⟨u, hu, rfl⟩
      · rw [State.unswept, hcur]
        simp only
        rw [if_neg hin]

theorem not_mem_mainlist_of_pending (h : Lists g) (hp : Pending g o) : o ∉ g.mainlist := by
  obtain ⟨u, hu, rfl⟩ := hp
  intro hin
  have hnodup := (List.nodup_append.mp h.nodup).2.2 _ hin (.userdata u)
  refine hnodup ?_ rfl
  exact List.mem_append_right _ (List.mem_append_right _ (List.mem_map_of_mem hu))

theorem mainlist_unlink (h : Lists g) (hin : o ∈ g.mainlist) (hne : o ≠ .thread g.mainthread) :
    (unlink o g).mainlist = g.mainlist.erase o ∧ (unlink o g).tmudata = g.tmudata := by
  rcases List.mem_append.mp hin with hr | hr
  · have hkind : unlink o g = { g with rootgc := g.rootgc.erase o } := by
      have hlisted := h.rootgc o hr
      cases o with
      | userdata u => exact hlisted.elim
      | string ts => rfl
      | upval uv => rfl
      | function cl => rfl
      | table t => rfl
      | thread th => rfl
      | proto q => rfl
    rw [hkind]
    exact ⟨(List.erase_append_left _ hr).symm, rfl⟩
  · obtain ⟨u, hu, rfl⟩ := List.mem_map.mp ((List.mem_cons.mp hr).resolve_left hne)
    have hroot : GCObject.userdata u ∉ g.rootgc := fun hin' => h.rootgc _ hin'
    refine ⟨?_, List.erase_of_not_mem fun hu' => not_mem_mainlist_of_pending h ⟨u, hu', rfl⟩ hin⟩
    change g.rootgc ++ (.thread g.mainthread :: (g.udata.erase u).map GCObject.userdata) = _
    rw [State.mainlist, List.erase_append_right _ hroot, List.erase_cons_tail (by simp),
      List.map_erase fun _ _ => GCObject.userdata.inj]

theorem rootgc_unlink {x : GCObject} (hx : x ∈ (unlink o g).rootgc) : x ∈ g.rootgc := by
  cases o with
  | userdata u => exact hx
  | string ts => exact List.mem_of_mem_erase hx
  | upval uv => exact List.mem_of_mem_erase hx
  | function cl => exact List.mem_of_mem_erase hx
  | table t => exact List.mem_of_mem_erase hx
  | thread th => exact List.mem_of_mem_erase hx
  | proto q => exact List.mem_of_mem_erase hx

/-- A dead object leaves the list of all objects. -/
theorem freed_unlink (h : Inv g) (hin : o ∈ g.mainlist) (hd : Dead g o) (hcur : g.sweepgc ≠ some o)
    (hopen : ∀ th, o = .thread th → (g.heap.thread th).openupval = []) : Freed g (unlink o g) := by
  have hne : o ≠ .thread g.mainthread := fun heq => (h.roots _ List.mem_cons_self).2 (heq ▸ hd)
  obtain ⟨hmain, htm⟩ := mainlist_unlink h.lists hin hne
  have hnodup : g.mainlist.Nodup := (List.nodup_append.mp h.lists.nodup).1
  have hsame : unlink o g = { g with rootgc := (unlink o g).rootgc, udata := (unlink o g).udata } := by
    cases o with
    | userdata u =>
      simp only [unlink] at htm ⊢
      rw [htm]
    | string ts => rfl
    | upval uv => rfl
    | function cl => rfl
    | table t => rfl
    | thread th => rfl
    | proto q => rfl
  have hobjects : (unlink o g).objects = g.mainlist.erase o ++ (g.strt.flatten.map .string ++
      (g.uvhead.map .upval ++ g.tmudata.map .userdata)) := by
    rw [State.objects, hmain]
    have hrest := congrArg (fun x : State => x.strt.flatten.map GCObject.string ++
      (x.uvhead.map .upval ++ x.tmudata.map .userdata)) hsame
    exact congrArg (g.mainlist.erase o ++ ·) hrest
  have hsub : (unlink o g).objects.Sublist g.objects := by
    rw [hobjects]
    exact List.Sublist.append List.erase_sublist (List.Sublist.refl _)
  have hkeep : ∀ x ∈ g.objects, x ≠ o → x ∈ (unlink o g).objects := by
    intro x hx hxo
    rw [hobjects]
    rcases List.mem_append.mp hx with hx | hx
    · exact List.mem_append_left _ ((List.mem_erase_of_ne hxo).mpr hx)
    · exact List.mem_append_right _ hx
  have hheap : (unlink o g).heap = g.heap := by rw [hsame]
  have hsubmain : ∀ x ∈ (unlink o g).mainlist, x ∈ g.mainlist := fun x hx => by
    rw [hmain] at hx
    exact List.mem_of_mem_erase hx
  refine ⟨?_, fun x => by rw [hheap], by rw [hheap], h.lists.nodup.sublist hsub, fun x hx => hsub.subset hx,
    fun x hx => hkeep x hx.1 fun heq => hx.2 (heq ▸ hd), fun x hx => rootgc_unlink hx, fun u hu => ?_,
    fun uv huv => ?_, fun th hth => ?_, fun i ts hts => ?_, fun x hx hin' => ?_, fun x hx hun => ?_⟩
  · rw [hsame]
  · cases o with
    | userdata u' => exact List.mem_of_mem_erase hu
    | string ts => exact hu
    | upval uv => exact hu
    | function cl => exact hu
    | table t => exact hu
    | thread th => exact hu
    | proto q => exact hu
  · rw [hsame] at huv
    refine ⟨huv, fun th level hup => ?_⟩
    obtain ⟨th', level', hup', hth, hmem⟩ := h.lists.uvhead uv huv
    rw [hup] at hup'
    cases hup'
    rw [hheap]
    refine ⟨hkeep _ hth fun heq => ?_, hmem⟩
    rw [hopen th heq.symm] at hmem
    cases hmem
  · rw [hheap, hsame]
    obtain ⟨hn, hall⟩ := h.lists.openupval th (hsub.subset hth)
    exact ⟨hn, fun uv huv => ⟨huv, (hall uv huv).1⟩⟩
  · rw [hsame] at hts
    exact hts
  · rw [hmain]
    have hxo : x ≠ o := fun heq => hcur (hx.trans (congrArg some heq))
    exact (List.mem_erase_of_ne hxo).mpr hin'
  · have hxo : x ≠ o := fun heq => by
      rw [hmain, heq] at hx
      exact (hnodup.mem_erase_iff.mp hx).1 rfl
    have hgc : (unlink o g).sweepgc = g.sweepgc := by rw [hsame]
    rw [State.unswept] at hun ⊢
    rw [hgc]
    cases hc : g.sweepgc with
    | none => exact hx
    | some y =>
      rw [hc] at hun
      simp only at hun ⊢
      have hyo : y ≠ o := fun heq => hcur (hc.trans (congrArg some heq))
      rw [hmain]
      by_cases hy : y ∈ g.mainlist
      · rw [if_pos hy] at hun
        rw [if_pos ((List.mem_erase_of_ne hyo).mpr hy)]
        exact following_erase hxo hyo hun
      · rw [if_neg hy] at hun
        rw [if_neg fun hy' => hy (List.mem_of_mem_erase hy')]
        obtain ⟨u, hu, rfl⟩ := List.mem_map.mp hun
        have hin' := (mem_udata_iff h.lists).mpr hu
        rw [hmain] at hx
        have hux : GCObject.userdata u ∈ (unlink o g).mainlist := hmain ▸ hx
        rcases List.mem_append.mp hux with hux | hux
        · exact absurd (rootgc_unlink hux) (h.lists.rootgc _)
        · exact (List.mem_cons.mp hux).resolve_left (by simp)

/-- An object that is swept and lives on. -/
theorem survivor_inv (h : Inv g) (hs : g.gcstate = .GCSsweep) (hcase : (o ∈ g.mainlist ∧ g.sweepgc ≠ some o ∧
      ∀ x ∈ g.unswept, x = o ∨ x ∈ following o g.mainlist) ∨ (Pending g o ∧ g.unswept = g.udata.map .userdata))
    (hd : ¬ Dead g o)
    (hupvals : ∀ th, o = .thread th → ∀ uv ∈ (g.heap.thread th).openupval, Fresh g (.upval uv)) :
    Inv { g.whiten o with sweepgc := some o } := by
  have hne : g.gcstate ≠ .GCSpropagate := by
    rw [hs]
    decide
  have hr := remarked_whiten h.onewhite o
  have h1 := h.whiten hd hne
  have hsw := h.sweeps hs
  have hwhite : Fresh (g.whiten o) o := by
    rw [Fresh, hr.self]
    exact isfresh_makewhite h.onewhite
  have hunswept : ∀ x, x ∉ State.unswept { g.whiten o with sweepgc := some o } → x = o ∨ x ∉ g.unswept := by
    intro x hx
    by_cases hxo : x = o
    · exact .inl hxo
    · refine .inr fun hin => hx ?_
      change x ∈ (if o ∈ g.mainlist then following o g.mainlist else g.udata.map .userdata)
      rcases hcase with ⟨hmain, -, hall⟩ | ⟨hpend, heq⟩
      · rw [if_pos hmain]
        exact (hall x hin).resolve_left hxo
      · rw [if_neg (not_mem_mainlist_of_pending h.lists hpend), ← heq]
        exact hin
  have hnext := h1.restate (s := .GCSsweep) (n := g.sweepstrgc) (y := some o) (by simp) (by simp) (by simp) fun _ =>
    ⟨fun ts hts => hr.keeps_fresh (hsw.strings ts hts), fun x hx => ?_, fun x hx hout => ?_,
      fun uv huv th level hup hout => ?_⟩
  · rw [← hs] at hnext
    exact hnext
  · cases hx
    exact hcase.imp (fun hm => hm.1) fun hp => hp.1
  · rcases hunswept x hout with rfl | hout
    · exact hwhite
    · exact hr.keeps_fresh (hsw.fresh x hx hout)
  · refine hr.keeps_fresh (c := .upval uv) ?_
    rcases hunswept (.thread th) hout with heq | hout
    · obtain ⟨th', level', hup', -, hmem⟩ := h.lists.uvhead uv huv
      rw [show g.heap.upval uv = .opened th level from hup] at hup'
      cases hup'
      exact hupvals th heq.symm uv hmem
    · exact hsw.upvals uv huv th level hup hout

/-- An object that is swept and freed. -/
theorem freeobj_inv (h : Inv g) (hs : g.gcstate = .GCSsweep) (hin : o ∈ g.mainlist) (hcur : g.sweepgc ≠ some o)
    (hd : Dead g o) : Inv (freeobj o (unlink o g)) ∧ (freeobj o (unlink o g)).gcstate = .GCSsweep := by
  have hne : g.gcstate ≠ .GCSpropagate := by
    rw [hs]
    decide
  have hother : (∀ th, o ≠ .thread th) → Inv (unlink o g) ∧ (unlink o g).gcstate = .GCSsweep := by
    intro hkind
    have hfreed := freed_unlink h hin hd hcur fun th heq => absurd heq (hkind th)
    refine ⟨hfreed.inv h hne, ?_⟩
    rw [hfreed.same]
    exact hs
  cases o with
  | thread th =>
    have heap : (unlink (.thread th) g).heap = g.heap := rfl
    rw [freeobj]
    simp only [heap]
    rw [closeall_unlink hne]
    obtain ⟨h1, hrest⟩ := closeall_inv h hne hin rfl
    have hmain : GCObject.thread th ∈ (closeall th (g.heap.thread th).openupval g).mainlist := by
      rw [hrest.same]
      rcases List.mem_append.mp hin with hr | hr
      · exact List.mem_append_left _ (hrest.rootgc _ hr)
      · exact List.mem_append_right _ hr
    have hmark := hrest.other (.thread th) (by simp)
    have hs1 : (closeall th (g.heap.thread th).openupval g).gcstate = .GCSsweep := by
      rw [hrest.same]
      exact hs
    have hfreed := freed_unlink h1 hmain (by
        rw [Dead, hmark, show State.currentwhite _ = g.currentwhite by rw [hrest.same]]
        exact hd) (by
        rw [hrest.same]
        exact hcur) fun th' heq => by
        cases heq
        exact hrest.openupval
    refine ⟨hfreed.inv h1 (by rw [hs1]; decide), ?_⟩
    rw [hfreed.same]
    exact hs1
  | string ts => exact hother (by simp)
  | userdata u => exact hother (by simp)
  | upval uv => exact hother (by simp)
  | function cl => exact hother (by simp)
  | table t => exact hother (by simp)
  | proto q => exact hother (by simp)

/-- One object is swept. -/
theorem sweepobject_inv (h : Inv g) (hs : g.gcstate = .GCSsweep) (ho : g.swept = some o) :
    Inv (sweepobject o g) ∧ (sweepobject o g).gcstate = .GCSsweep := by
  have hne : g.gcstate ≠ .GCSpropagate := by
    rw [hs]
    decide
  have hcase := swept_cases h ho
  have hin : o ∈ g.objects := by
    rcases hcase with ⟨hmain, -⟩ | ⟨⟨u, hu, rfl⟩, -⟩
    · exact List.mem_append_left _ hmain
    · exact mem_objects_iff.mpr (.inr (.inr (.inr (.inr ⟨u, .inr hu, rfl⟩))))
  have hkind : ∀ ts, o ≠ .string ts := by
    rintro ts rfl
    rcases hcase with ⟨hmain, -⟩ | ⟨⟨u, -, heq⟩, -⟩
    · rcases List.mem_append.mp hmain with hr | hr
      · exact h.lists.rootgc _ hr
      · rcases List.mem_cons.mp hr with heq | hr
        · cases heq
        · obtain ⟨u, -, heq⟩ := List.mem_map.mp hr
          cases heq
    · cases heq
  -- The open upvalues of a thread are swept before it.
  have hbefore : ∀ g1, Inv g1 → g1 = { g with heap := g1.heap, marked := g1.marked, uvhead := g1.uvhead } →
      o ∈ g1.objects → (∀ th, o = .thread th → ∀ uv ∈ (g1.heap.thread th).openupval, Fresh g1 (.upval uv)) →
      let g2 := if g1.survives o then { g1.whiten o with sweepgc := some o } else freeobj o (unlink o g1)
      Inv g2 ∧ g2.gcstate = .GCSsweep := by
    intro g1 h1 hsame hin1 hupvals
    have hs1 : g1.gcstate = .GCSsweep := by
      rw [hsame]
      exact hs
    have hcase1 : (o ∈ g1.mainlist ∧ g1.sweepgc ≠ some o ∧ ∀ x ∈ g1.unswept, x = o ∨ x ∈ following o g1.mainlist) ∨
        (Pending g1 o ∧ g1.unswept = g1.udata.map .userdata) := by
      rw [hsame]
      exact hcase
    simp only
    split_ifs with hsurvives
    · exact ⟨survivor_inv h1 hs1 hcase1 (h1.not_dead_of_survives hin1 hkind hsurvives) hupvals, hs1⟩
    · have hdead : Dead g1 o := by
        by_contra hnot
        exact hsurvives (h1.survives_of_alive hin1 hnot)
      rcases hcase1 with ⟨hmain, hcur, -⟩ | ⟨⟨u, hu, rfl⟩, -⟩
      · exact freeobj_inv h1 hs1 hmain hcur hdead
      · exact absurd hdead (h1.roots _ (State.tmudata_mem_roots hu)).2
  cases o with
  | thread th =>
    have hswept := sweepopenupval_inv h hne hin
    exact hbefore _ hswept.inv hswept.same (hswept.objects _ hin (by simp)) fun th' heq => by
      cases heq
      exact hswept.fresh
  | string ts => exact absurd rfl (hkind ts)
  | userdata u => exact hbefore g h rfl hin (by simp)
  | upval uv => exact hbefore g h rfl hin (by simp)
  | function cl => exact hbefore g h rfl hin (by simp)
  | table t => exact hbefore g h rfl hin (by simp)
  | proto q => exact hbefore g h rfl hin (by simp)

theorem sweeplist_inv {n : Nat} (h : Inv g) (hs : g.gcstate = .GCSsweep) :
    Inv (sweeplist n g) ∧ (sweeplist n g).gcstate = .GCSsweep := by
  induction n generalizing g with
  | zero => exact ⟨h, hs⟩
  | succ n ih =>
    rw [sweeplist]
    cases ho : g.swept with
    | none => exact ⟨h, hs⟩
    | some o =>
      obtain ⟨h1, hs1⟩ := sweepobject_inv h hs ho
      exact ih h1 hs1

/-- Where nothing is left to sweep, everything is new or waits for its finalizer. -/
theorem swept_all (h : Inv g) (hs : g.gcstate = .GCSsweep) (ho : g.swept = none) :
    ∀ o ∈ g.objects, Fresh g o ∨ Pending g o := by
  have hsw := h.sweeps hs
  have hnone : g.unswept = [] := by
    rw [State.swept] at ho
    rw [State.unswept]
    cases hcur : g.sweepgc with
    | none =>
      rw [hcur] at ho
      exact List.head?_eq_none_iff.mp ho
    | some y =>
      rw [hcur] at ho
      simp only at ho ⊢
      by_cases hin : y ∈ g.mainlist
      · rw [if_pos hin] at ho ⊢
        exact List.head?_eq_none_iff.mp ho
      · rw [if_neg hin] at ho
        obtain ⟨u, hu, rfl⟩ := (hsw.cursor y hcur).resolve_left hin
        have hlist := List.head?_eq_none_iff.mp ho
        -- The circular list of pending userdata has no end.
        have hmem := List.mem_map_of_mem (f := GCObject.userdata) hu
        exact absurd hlist (following_append_ne hmem (List.ne_nil_of_mem hmem))
  intro o hin
  rcases mem_objects_iff.mp hin with hr | hr | ⟨ts, hts, rfl⟩ | ⟨uv, huv, rfl⟩ | ⟨u, hu | hu, rfl⟩
  · exact .inl (hsw.fresh o (List.mem_append_left _ hr) (by rw [hnone]; exact List.not_mem_nil))
  · refine .inl (hsw.fresh o ?_ (by rw [hnone]; exact List.not_mem_nil))
    rw [hr]
    exact List.mem_append_right _ List.mem_cons_self
  · exact .inl (hsw.strings ts hts)
  · obtain ⟨th, level, hup, -⟩ := h.lists.uvhead uv huv
    exact .inl (hsw.upvals uv huv th level hup (by rw [hnone]; exact List.not_mem_nil))
  · exact .inl (hsw.fresh _ ((mem_udata_iff h.lists).mpr hu) (by rw [hnone]; exact List.not_mem_nil))
  · exact .inr ⟨u, hu, rfl⟩

theorem sweep_inv (h : Inv g) (hs : g.gcstate = .GCSsweep) : Inv (singlestep g) := by
  obtain ⟨h1, hs1⟩ := sweeplist_inv (n := GCSWEEPMAX) h hs
  rw [singlestep]
  simp only [hs]
  cases ho : (sweeplist GCSWEEPMAX g).swept with
  | some o => exact h1
  | none =>
    exact h1.restate (fun _ => swept_all h1 hs1 ho) (by simp) (by simp) (by simp)

end Objects

end UgmeeLua.Gc

import UgmeeLua.Lgc.Propagate
import Mathlib.Data.List.ReduceOption

namespace UgmeeLua.Gc

/-! ## The atomic phase -/

section Atomic

variable {n : Nat} {X : GCObject → Prop} {g g' g'' : State} {o : GCObject}

/-- An upvalue that is marked refers to what is marked. -/
def UpvalDone (g : State) (uv : Nat) : Prop :=
  g.white (.upval uv) = false → NonWhite g (refs g.heap (.upval uv))

theorem UpvalDone.marked {A : GCObject → Prop} {uv : Nat} (h : UpvalDone g uv) (hm : Marked A g g') :
    UpvalDone g' uv := by
  intro hn
  cases hw : g.white (.upval uv) with
  | false =>
    rw [hm.heap]
    exact hm.nonwhites (h hw)
  | true =>
    rcases (hm.newly _ hw hn).2 with ⟨-, hwaits⟩ | ⟨-, -, hrefs⟩
    · exact hwaits.2
    · exact hrefs

theorem remarkupval_marked {A : GCObject → Prop} {uv : Nat} (hclosed : Closed A g.heap) (hA : A (.upval uv))
    (hb : g.black (.upval uv) = false) :
    Marked A g (remarkupval uv g) ∧ UpvalDone (remarkupval uv g) uv := by
  rw [remarkupval]
  split_ifs with hgray
  · have hmarks := marks_value (v := g.heap.upvalue uv) hclosed fun o ho => hclosed _ hA o
      (mem_gcvalues.mpr ⟨_, List.mem_singleton_self _, ho⟩)
    refine ⟨hmarks.1, fun _ => ?_⟩
    rw [hmarks.1.heap]
    exact hmarks.2
  · refine ⟨Marked.refl A g, fun hn => absurd ?_ hgray⟩
    rw [isgray, show isblack (g.marked (.upval uv)) = false from hb,
      show iswhite (g.marked (.upval uv)) = false from hn]
    rfl

theorem remarkupvals_marked {l : List Nat} (h : Phase n X g) (hl : ∀ uv ∈ l, .upval uv ∈ g.objects)
    (hopen : ∀ uv ∈ l, Exempt g.heap (.upval uv)) :
    Marked (· ∈ g.objects) g (marksAll remarkupval l g) ∧
      ∀ uv ∈ l, UpvalDone (marksAll remarkupval l g) uv := by
  induction l generalizing g with
  | nil => exact ⟨Marked.refl _ g, fun uv huv => (List.not_mem_nil huv).elim⟩
  | cons uv l ih =>
    have hb : g.black (.upval uv) = false := by
      by_contra hb
      exact h.exempt _ (hl uv List.mem_cons_self) (eq_true_of_ne_false hb) (hopen uv List.mem_cons_self)
    obtain ⟨hm, hdone⟩ := remarkupval_marked h.closed (hl uv List.mem_cons_self) hb
    have hobjects := hm.objects
    have hrest := ih (h.marked hm) (fun uv' huv' => hobjects ▸ hl uv' (List.mem_cons_of_mem _ huv'))
      fun uv' huv' => hm.heap ▸ hopen uv' (List.mem_cons_of_mem _ huv')
    rw [hobjects] at hrest
    refine ⟨hm.trans hrest.1, fun uv' huv' => ?_⟩
    rcases List.mem_cons.mp huv' with rfl | hin
    · exact hdone.marked hrest.1
    · exact hrest.2 uv' hin

theorem remarkupvals_phase (h : Phase 0 Nowhere g) (hin : ∀ uv ∈ g.uvhead, .upval uv ∈ g.objects)
    (hopen : ∀ uv ∈ g.uvhead, Exempt g.heap (.upval uv))
    (hall : ∀ uv, .upval uv ∈ g.objects → Exempt g.heap (.upval uv) → uv ∈ g.uvhead) :
    Phase 1 Nowhere (remarkupvals g) ∧ Marches g (remarkupvals g) := by
  obtain ⟨hm, hdone⟩ := remarkupvals_marked h hin hopen
  refine ⟨{ h.marked hm with
    remarked := fun _ uv huv hex hn => hdone uv (hall uv (hm.objects ▸ huv) (hm.heap ▸ hex)) hn
    weak := fun hn => absurd hn (by decide)
    again := fun hn => absurd hn (by decide)
    tmudata := fun hn => absurd hn (by decide) }, hm.marches⟩

/-- The weak tables are gray again. -/
theorem Phase.reweak (h : Phase 1 Nowhere g) (hg : g.gray = []) :
    Phase 2 Nowhere { g with gray := g.weak.map .table, weak := [] } := by
  have hperm : (g.weak.map GCObject.table ++ (g.grayagain ++ ([] : List Nat).map GCObject.table)).Perm g.grays := by
    rw [State.grays, hg, List.map_nil, List.append_nil, List.nil_append]
    exact List.perm_append_comm
  have hlist := h.relist (c := []) hperm (fun _ h => h) (fun _ _ ht => (List.not_mem_nil ht).elim)
    fun hn => absurd hn (by decide)
  exact { hlist with
    remarked := fun _ => hlist.remarked (Nat.le_refl 1)
    weak := fun _ _ ht => (List.not_mem_nil ht).elim
    again := fun hn => absurd hn (by decide)
    tmudata := fun hn => absurd hn (by decide) }

/-- The objects of `grayagain` are gray again. -/
theorem Phase.regray (h : Phase 2 Nowhere g) (hg : g.gray = []) :
    Phase 3 Nowhere { g with gray := g.grayagain, grayagain := [] } := by
  have hperm : (g.grayagain ++ ([] ++ g.weak.map GCObject.table)).Perm g.grays := by
    rw [State.grays, hg]
    exact List.Perm.refl _
  have hlist := h.relist hperm (fun _ h => h) (fun _ _ ht _ => ht) fun _ _ ho => (List.not_mem_nil ho).elim
  exact { hlist with
    remarked := fun _ => hlist.remarked (by decide)
    weak := fun _ => hlist.weak (Nat.le_refl 2)
    again := fun _ _ ho => (List.not_mem_nil ho).elim
    tmudata := fun hn => absurd hn (by decide) }

theorem markmt_marked {A : GCObject → Prop} (hA : ∀ h, some h ∈ g.mt → A (.table h)) :
    MarksRefs A g (markmt g) (g.mt.reduceOption.map .table) := by
  have hmarks : MarksRefs A g (markmt g) (g.mt.flatMap fun mt => mt.toList.map .table) :=
    marks_all fun mt hmt g1 _ => marks_metatable fun t ht => hA t (ht ▸ hmt)
  have heq : (g.mt.flatMap fun mt => mt.toList.map GCObject.table) = g.mt.reduceOption.map .table := by
    induction g.mt with
    | nil => rfl
    | cons mt l ih =>
      cases mt with
      | none => simpa [List.reduceOption_cons_of_none] using ih
      | some t => simpa [List.reduceOption_cons_of_some] using ih
  rw [← heq]
  exact hmarks

/-- What the roots need: the thread that runs and the basic metatables are objects. -/
structure Rooted (g : State) : Prop where
  running : .thread g.running ∈ g.objects
  mt : ∀ h, some h ∈ g.mt → .table h ∈ g.objects

/-- `atomic` up to the weak tables: the thread that runs and the basic metatables are marked. -/
theorem remarkroots_phase (h : Phase 2 Nowhere g) (hr : Rooted g) :
    let g' := propagateall (markmt (markobject (.thread g.running) g))
    Phase 2 Nowhere g' ∧ Marches g g' ∧ g'.gray = [] ∧
      NonWhite g' (.thread g.running :: g.mt.reduceOption.map .table) := by
  intro g'
  have hthread : MarksRefs (· ∈ g.objects) g _ _ := marks_object h.closed hr.running
  have hmt : (markobject (.thread g.running) g).mt = g.mt := by rw [hthread.1.same]
  have hmts := hthread.append (markmt_marked fun t ht => hr.mt t (hmt ▸ ht))
  obtain ⟨hphase, hmarches, hgray⟩ := propagateall_phase (h.marked hmts.1)
  have hroots := hmts.2
  rw [hmt] at hroots
  exact ⟨hphase, hmts.1.marches.trans hmarches, hgray, NonWhite.marches hroots hmarches⟩

theorem Rooted.marches (hr : Rooted g) (h : Marches g g') : Rooted g' := by
  have hrunning : g'.running = g.running := by rw [h.same]
  have hmt : g'.mt = g.mt := by rw [h.same]
  refine ⟨?_, ?_⟩
  · rw [hrunning, h.objects]
    exact hr.running
  · rw [hmt, h.objects]
    exact hr.mt

theorem remarkall_phase (h : Phase 0 Nowhere g) (hr : Rooted g) (hin : ∀ uv ∈ g.uvhead, .upval uv ∈ g.objects)
    (hopen : ∀ uv ∈ g.uvhead, Exempt g.heap (.upval uv))
    (hall : ∀ uv, .upval uv ∈ g.objects → Exempt g.heap (.upval uv) → uv ∈ g.uvhead) :
    Phase 3 Nowhere (remarkall g) ∧ Marches g (remarkall g) ∧ (remarkall g).gray = [] ∧
      NonWhite (remarkall g) (.thread g.running :: g.mt.reduceOption.map .table) := by
  obtain ⟨h1, hm1⟩ := remarkupvals_phase h hin hopen hall
  obtain ⟨h2, hm2, hg2⟩ := propagateall_phase h1
  have h3 := h2.reweak hg2
  have hm3 := (hm1.trans hm2).relist ((propagateall (remarkupvals g)).weak.map .table)
    (propagateall (remarkupvals g)).grayagain []
  have hroots : (.thread (propagateall (remarkupvals g)).running ::
      (propagateall (remarkupvals g)).mt.reduceOption.map GCObject.table) =
      .thread g.running :: g.mt.reduceOption.map .table := by
    rw [(hm1.trans hm2).same]
  obtain ⟨h5, hm5, hg5, hn5⟩ := remarkroots_phase h3 (hr.marches hm3)
  have h6 := h5.regray hg5
  obtain ⟨h7, hm7, hg7⟩ := propagateall_phase h6
  have hn6 := hn5
  rw [hroots] at hn6
  refine ⟨h7, Marches.trans ?_ hm7, hg7, fun o ho => hm7.nonwhite o (hn6 o ho)⟩
  exact (hm3.trans hm5).relist _ _ _

/-! ## Userdata that needs finalization -/

theorem mem_objects_iff : o ∈ g.objects ↔ o ∈ g.rootgc ∨ o = .thread g.mainthread ∨
    (∃ ts, ts ∈ g.strt.flatten ∧ o = .string ts) ∨ (∃ uv ∈ g.uvhead, o = .upval uv) ∨
    ∃ u, (u ∈ g.udata ∨ u ∈ g.tmudata) ∧ o = .userdata u := by
  simp only [State.objects, State.mainlist, List.mem_append, List.mem_cons, List.mem_map]
  constructor
  · rintro ((h | h | ⟨u, h, rfl⟩) | ⟨ts, h, rfl⟩ | ⟨uv, h, rfl⟩ | ⟨u, h, rfl⟩)
    · exact .inl h
    · exact .inr (.inl h)
    · exact .inr (.inr (.inr (.inr ⟨u, .inl h, rfl⟩)))
    · exact .inr (.inr (.inl ⟨ts, h, rfl⟩))
    · exact .inr (.inr (.inr (.inl ⟨uv, h, rfl⟩)))
    · exact .inr (.inr (.inr (.inr ⟨u, .inr h, rfl⟩)))
  · rintro (h | h | ⟨ts, h, rfl⟩ | ⟨uv, h, rfl⟩ | ⟨u, h | h, rfl⟩)
    · exact .inl (.inl h)
    · exact .inl (.inr (.inl h))
    · exact .inr (.inl ⟨ts, h, rfl⟩)
    · exact .inr (.inr (.inl ⟨uv, h, rfl⟩))
    · exact .inl (.inr (.inr ⟨u, h, rfl⟩))
    · exact .inr (.inr (.inr ⟨u, h, rfl⟩))

/-- `luaC_separateudata` finds an userdata: it is dead, or all are wanted, and has not been found before. -/
def found (all : Bool) (g : State) (u : Nat) : Bool :=
  (g.white (.userdata u) || all) && !isfinalized (g.marked (.userdata u))

/-- The metatable of an userdata has a finalizer. -/
def hasgc (g : State) (u : Nat) : Bool := (fasttm g.heap (g.heap.udata u).metatable g.tmGc).isSome

/-- Userdata with a finalizer goes from the list of all objects to the end of the list of pending ones, and
what is found is marked as finalized. -/
structure Separated (all : Bool) (l : List Nat) (g g' : State) : Prop where
  same : g' = { g with marked := g'.marked, udata := g'.udata, tmudata := g'.tmudata }
  udata : g'.udata = g.udata ++ l.filter fun u => !(found all g u && hasgc g u)
  tmudata : g'.tmudata = g.tmudata ++ l.filter fun u => found all g u && hasgc g u
  finalized : ∀ u ∈ l, found all g u = true →
    g'.marked (.userdata u) = markfinalized (g.marked (.userdata u))
  kept : ∀ o, (∀ u ∈ l, o = .userdata u → found all g u = false) → g'.marked o = g.marked o

theorem separate_spec (all : Bool) (u : Nat) (g : State) : Separated all [u] g (separate all u g) := by
  have hcond : (!(g.white (.userdata u) || all) || isfinalized (g.marked (.userdata u))) = !found all g u := by
    rw [found, Bool.not_and, Bool.not_not]
  rw [separate]
  simp only [hcond]
  cases hfound : found all g u with
  | false =>
    simp only [Bool.not_false, if_true]
    exact ⟨rfl, by simp [hfound], by simp [hfound], fun u' hu' h => by simp_all, fun _ _ => rfl⟩
  | true =>
    simp only [Bool.not_true, Bool.false_eq_true, if_false]
    have hkept : ∀ o, (∀ u' ∈ [u], o = .userdata u' → found all g u' = false) →
        (g.mark (.userdata u) markfinalized).marked o = g.marked o := fun o ho =>
      marked_mark_other fun heq => by
        have hnot := ho u (List.mem_singleton_self u) heq
        rw [hfound] at hnot
        cases hnot
    have hself : ∀ u' ∈ [u], found all g u' = true → (g.mark (.userdata u) markfinalized).marked
        (.userdata u') = markfinalized (g.marked (.userdata u')) := fun u' hu' _ => by
      rw [List.mem_singleton.mp hu']
      exact marked_mark_self
    cases htm : fasttm g.heap (g.heap.udata u).metatable g.tmGc with
    | none => exact ⟨rfl, by simp [hasgc, htm], by simp [hasgc, htm, State.mark], hself, hkept⟩
    | some tm =>
      exact ⟨rfl, by simp [hasgc, htm, hfound, State.mark], by simp [hasgc, htm, hfound],
        hself, hkept⟩

theorem marksAll_separate {all : Bool} {l : List Nat} (hl : l.Nodup) (g : State) :
    Separated all l g (marksAll (separate all) l g) := by
  induction l generalizing g with
  | nil =>
    exact ⟨rfl, (List.append_nil _).symm, (List.append_nil _).symm, fun _ hu => (List.not_mem_nil hu).elim,
      fun _ _ => rfl⟩
  | cons u l ih =>
    obtain ⟨hnot, hl⟩ := List.nodup_cons.mp hl
    have hone := separate_spec all u g
    have hrest := ih hl (separate all u g)
    change Separated all (u :: l) g (marksAll (separate all) l (separate all u g))
    have hheap : (separate all u g).heap = g.heap := by rw [hone.same]
    have htm : (separate all u g).tmGc = g.tmGc := by rw [hone.same]
    have hmarked : ∀ u' ∈ l, (separate all u g).marked (.userdata u') = g.marked (.userdata u') := by
      intro u' hu'
      refine hone.kept _ fun u'' hu'' heq => ?_
      cases heq
      rw [List.mem_singleton.mp hu''] at hu'
      exact absurd hu' hnot
    have hfound : ∀ u' ∈ l, found all (separate all u g) u' = found all g u' := fun u' hu' => by
      rw [found, State.white, hmarked u' hu']
      rfl
    have hgc : ∀ u', hasgc (separate all u g) u' = hasgc g u' := fun u' => by rw [hasgc, hheap, htm, hasgc]
    have hsplit : ∀ p q : Nat → Bool, (∀ u' ∈ l, p u' = q u') → ∀ l' : List Nat,
        l' ++ [u].filter q ++ l.filter p = l' ++ (u :: l).filter q := fun p q hpq l' => by
      rw [List.filter_congr hpq, List.append_assoc, ← List.filter_append, List.singleton_append]
    refine ⟨?_, ?_, ?_, fun u' hu' hf => ?_, fun o ho => ?_⟩
    · rw [hrest.same, hone.same]
    · rw [hrest.udata, hone.udata]
      exact hsplit _ _ (fun u' hu' => by rw [hfound u' hu', hgc]) _
    · rw [hrest.tmudata, hone.tmudata]
      exact hsplit _ _ (fun u' hu' => by rw [hfound u' hu', hgc]) _
    · rcases List.mem_cons.mp hu' with rfl | hin
      · rw [hrest.kept _ fun u'' hu'' heq => ?_]
        · exact hone.finalized _ (List.mem_singleton_self _) hf
        · cases heq
          exact absurd hu'' hnot
      · rw [hrest.finalized u' hin ((hfound u' hin).trans hf), hmarked u' hin]
    · rw [hrest.kept o fun u' hu' heq => ?_]
      · exact hone.kept o fun u' hu' heq => ho u' (List.mem_cons.mpr (.inl (List.mem_singleton.mp hu'))) heq
      · rw [hfound u' hu']
        exact ho u' (List.mem_cons_of_mem _ hu') heq

/-- What `luaC_separateudata` does. -/
theorem luaCSeparateudata_spec {all : Bool} (hl : g.udata.Nodup) :
    Separated all g.udata { g with udata := [] } (luaCSeparateudata all g) :=
  marksAll_separate hl _

/-- `luaC_separateudata` moves userdata from one list to the other, and changes only the bit of finalized
userdata. -/
structure Moved (g g' : State) : Prop where
  same : g' = { g with marked := g'.marked, udata := g'.udata, tmudata := g'.tmudata }
  perm : (g'.udata ++ g'.tmudata).Perm (g.udata ++ g.tmudata)
  sub : ∀ u ∈ g.tmudata, u ∈ g'.tmudata
  marked : ∀ o, g'.marked o = g.marked o ∨ ∃ u, o = .userdata u ∧ g'.marked o = markfinalized (g.marked o)

theorem luaCSeparateudata_moved {all : Bool} (hl : g.udata.Nodup) : Moved g (luaCSeparateudata all g) := by
  have h : Separated all g.udata { g with udata := [] } (luaCSeparateudata all g) := luaCSeparateudata_spec hl
  refine ⟨?_, ?_, fun u hu => ?_, fun o => ?_⟩
  · exact h.same
  · rw [h.udata, h.tmudata, List.nil_append]
    have hsplit : (List.filter (fun u => !(found all { g with udata := [] } u &&
        hasgc { g with udata := [] } u)) g.udata ++ (List.filter (fun u => found all { g with udata := [] } u &&
        hasgc { g with udata := [] } u) g.udata)).Perm g.udata :=
      List.perm_append_comm.trans (List.filter_append_perm _ g.udata)
    refine (List.Perm.append_left _ List.perm_append_comm).trans ?_
    rw [← List.append_assoc]
    exact hsplit.append_right _
  · rw [h.tmudata]
    exact List.mem_append_left _ hu
  · by_cases hall : ∀ u ∈ g.udata, o = .userdata u → found all { g with udata := [] } u = false
    · exact .inl (h.kept o hall)
    · push Not at hall
      obtain ⟨u, hu, rfl, hf⟩ := hall
      exact .inr ⟨u, rfl, h.finalized u hu (eq_true_of_ne_false hf)⟩

theorem Moved.white (h : Moved g g') : g'.white = g.white := by
  funext o
  rcases h.marked o with heq | ⟨u, -, heq⟩
  · rw [State.white, heq, State.white]
  · rw [State.white, heq, iswhite_markfinalized, State.white]

theorem Moved.black (h : Moved g g') : g'.black = g.black := by
  funext o
  rcases h.marked o with heq | ⟨u, -, heq⟩
  · rw [State.black, heq, State.black]
  · rw [State.black, heq, isblack_markfinalized, State.black]

theorem Moved.heap (h : Moved g g') : g'.heap = g.heap := by rw [h.same]

theorem Moved.table (h : Moved g g') (t : Nat) : g'.marked (.table t) = g.marked (.table t) := by
  rcases h.marked (.table t) with heq | ⟨u, heq, -⟩
  · exact heq
  · cases heq

theorem Moved.objects (h : Moved g g') : g'.objects.Perm g.objects := by
  have hboth : (g'.udata.map GCObject.userdata ++ g'.tmudata.map GCObject.userdata).Perm
      (g.udata.map GCObject.userdata ++ g.tmudata.map GCObject.userdata) := by
    rw [← List.map_append, ← List.map_append]
    exact h.perm.map _
  have hcount := List.perm_iff_count.mp hboth
  rw [h.same]
  refine List.perm_iff_count.mpr fun o => ?_
  have ho := hcount o
  simp only [State.objects, State.mainlist, List.count_append, List.count_cons] at ho ⊢
  omega

theorem Phase.moved (h : Phase n X g) (hn : n ≤ 3) (hm : Moved g g') : Phase n X g' := by
  refine h.congr hn hm.heap hm.white hm.black (fun o => hm.objects.mem_iff) ?_ ?_ ?_ hm.sub fun t _ _ => ?_
  · rw [hm.same]
  · rw [hm.same]
  · rw [hm.same]
  · rw [keyweak, valueweak, hm.table t]
    exact ⟨rfl, rfl⟩

/-- Pending userdata becomes black. -/
theorem Phase.remark {u : Nat} {f : BitVec 8 → BitVec 8} (h : Phase n X g) (hn : n ≤ 3) (hu : u ∈ g.tmudata)
    (hw : iswhite (f (g.marked (.userdata u))) = false) : Phase n X (g.mark (.userdata u) f) := by
  have hmono : ∀ o, g.white o = false → (g.mark (.userdata u) f).white o = false := by
    intro o ho
    by_cases heq : o = .userdata u
    · rw [heq]
      exact white_mark_self.trans hw
    · exact (white_mark_other heq).trans ho
  have hnon : ∀ l, NonWhite g l → NonWhite (g.mark (.userdata u) f) l := fun l hl o ho => hmono o (hl o ho)
  have hmarked : ∀ o, o ≠ .userdata u → (g.mark (.userdata u) f).marked o = g.marked o := fun o hne =>
    marked_mark_other hne
  refine ⟨h.closed, fun o ho hb hp hX => ?_, fun o ho hw' => ?_, fun o ho hw' => ?_, fun o ho hb => ?_,
    fun o ho => ?_, h.nodup, fun h1 uv ho hopen hw' => ?_, fun h2 t ht hX => ?_,
    fun h3 o ho hX => hnon _ (h.again h3 o ho hX), fun h4 => absurd (h4.trans hn) (by decide)⟩
  · have hne : o ≠ .userdata u := fun heq => hp ⟨u, hu, heq⟩
    rw [State.black, hmarked o hne] at hb
    exact hnon _ (h.black o ho hb hp hX)
  · by_cases heq : o = .userdata u
    · rw [heq]
      exact .inr hu
    · rw [State.white, hmarked o heq] at hw'
      refine (h.settled o ho hw').imp (fun hb => ?_) (fun _ hu _ => .inr hu) (fun _ _ hex => .inr hex) .inr
      rw [State.black, hmarked o heq]
      exact hb
  · have hne : o ≠ .userdata u := fun heq => by
      rw [heq, white_mark_self, hw] at hw'
      cases hw'
    rw [State.white, hmarked o hne] at hw'
    rw [State.black, hmarked o hne]
    exact h.notblack o ho hw'
  · by_cases heq : o = .userdata u
    · rw [heq]
      exact id
    · rw [State.black, hmarked o heq] at hb
      exact h.exempt o ho hb
  · obtain ⟨hin, hw', hk, hb⟩ := h.listed o ho
    refine ⟨hin, hmono o hw', hk, fun hX => ?_⟩
    have hne : o ≠ .userdata u := fun heq => by
      rw [heq] at hk
      exact hk
    rw [State.black, hmarked o hne]
    exact hb hX
  · rw [white_mark_other fun h => by cases h] at hw'
    exact hnon _ (h.remarked h1 uv ho hopen hw')
  · rw [WeakDone, keyweak, valueweak, hmarked _ fun h => by cases h]
    exact hnon _ (h.weak h2 t ht hX)

/-- `marktmu` on one userdata: it is black, and what it refers to is marked. -/
theorem remarkudata_phase {u : Nat} (h : Phase n X g) (hn : n ≤ 3) (hu : u ∈ g.tmudata) :
    Phase n X (remarkudata u g) ∧ Marches g (remarkudata u g) ∧
      NonWhite (remarkudata u g) (.userdata u :: refs g.heap (.userdata u)) := by
  let f : BitVec 8 → BitVec 8 := fun m => gray2black (white2gray (makewhite g.currentwhite m))
  let g1 := g.mark (.userdata u) f
  have hf : iswhite (f (g.marked (.userdata u))) = false := iswhite_gray2black.trans iswhite_white2gray
  have h1 : Phase n X g1 := h.remark hn hu hf
  have hin : GCObject.userdata u ∈ g1.objects :=
    mem_objects_iff.mpr (.inr (.inr (.inr (.inr ⟨u, .inr hu, rfl⟩))))
  have hrefs := h1.closed _ hin
  have hmt : MarksRefs (· ∈ g1.objects) g1 (markmetatable (g.heap.udata u).metatable g1) _ :=
    marks_metatable fun t ht => hrefs _ (List.mem_append_left _ (List.mem_map_of_mem (Option.mem_toList.mpr ht)))
  have hboth := hmt.append (marks_table (t := (g.heap.udata u).env)
    (hrefs _ (List.mem_append_right _ (List.mem_singleton_self _))))
  have heq : remarkudata u g =
      marktable (g.heap.udata u).env (markmetatable (g.heap.udata u).metatable g1) := by
    simp only [remarkudata, reallymarkobject, markplain, markudata, State.mark, Function.update_self,
      Function.update_idem, g1, f]
  have hm1 : Marches g g1 := by
    refine ⟨rfl, Trims.rfl _, fun o ho => ?_, fun o ho => ?_, fun o => ?_, fun u' => ?_⟩
    · by_cases heq : o = .userdata u
      · rw [heq]
        exact white_mark_self.trans hf
      · exact (white_mark_other heq).trans ho
    · refine marked_mark_other fun heq => ?_
      rw [heq, white_mark_self.trans hf] at ho
      cases ho
    · by_cases heq : o = .userdata u
      · rw [heq, marked_mark_self, fixed_gray2black, fixed_white2gray, fixed_makewhite]
      · rw [marked_mark_other heq]
    · by_cases heq : GCObject.userdata u' = .userdata u
      · rw [heq, marked_mark_self, isfinalized_gray2black, isfinalized_white2gray, isfinalized_makewhite]
      · rw [marked_mark_other heq]
  rw [heq]
  refine ⟨h1.marked hboth.1, hm1.trans hboth.1.marches, fun o ho => ?_⟩
  rcases List.mem_cons.mp ho with rfl | ho
  · exact hboth.1.nonwhite (white_mark_self.trans hf)
  · exact hboth.2 o ho

theorem marktmu_phase (h : Phase 3 Nowhere g) : Phase 4 Nowhere (marktmu g) ∧ Marches g (marktmu g) := by
  have hall : ∀ l : List Nat, (∀ u ∈ l, u ∈ g.tmudata) → ∀ g1, Marches g g1 → Phase 3 Nowhere g1 →
      Phase 3 Nowhere (marksAll remarkudata l g1) ∧ Marches g (marksAll remarkudata l g1) ∧
        ∀ u, u ∈ l ∨ NonWhite g1 (.userdata u :: refs g1.heap (.userdata u)) →
          NonWhite (marksAll remarkudata l g1) (.userdata u ::
            refs (marksAll remarkudata l g1).heap (.userdata u)) := by
    intro l
    induction l with
    | nil => exact fun _ g1 hm h1 => ⟨h1, hm, fun u hu => hu.resolve_left List.not_mem_nil⟩
    | cons u l ih =>
      intro hl g1 hm h1
      have htm : g1.tmudata = g.tmudata := by rw [hm.same]
      obtain ⟨h2, hm2, hn2⟩ := remarkudata_phase h1 (Nat.le_refl 3)
        (htm ▸ hl u List.mem_cons_self)
      obtain ⟨h3, hm3, hn3⟩ := ih (fun u' hu' => hl u' (List.mem_cons_of_mem _ hu')) (remarkudata u g1)
        (hm.trans hm2) h2
      refine ⟨h3, hm3, fun u' hu' => hn3 u' ?_⟩
      -- What is marked stays so, and what is no reference any more was one.
      have hkeep : ∀ u', NonWhite (remarkudata u g1) (.userdata u' :: refs g1.heap (.userdata u')) →
          NonWhite (remarkudata u g1) (.userdata u' :: refs (remarkudata u g1).heap (.userdata u')) := by
        intro u' hn o ho
        rcases List.mem_cons.mp ho with rfl | ho
        · exact hn _ List.mem_cons_self
        · exact hn o (List.mem_cons_of_mem _ (hm2.trims.refs _ o ho))
      rcases hu' with hin | hdone
      · rcases List.mem_cons.mp hin with rfl | hin
        · exact .inr (hkeep _ hn2)
        · exact .inl hin
      · exact .inr (hkeep u' (NonWhite.marches hdone hm2))
  obtain ⟨hphase, hm, hdone⟩ := hall g.tmudata (fun _ hu => hu) g (Marches.rfl g) h
  have htm : (marktmu g).tmudata = g.tmudata := by
    rw [marktmu, hm.same]
  refine ⟨{ hphase with
    remarked := fun _ => hphase.remarked (by decide)
    weak := fun _ => hphase.weak (by decide)
    again := fun _ => hphase.again (Nat.le_refl 3)
    tmudata := fun _ u hu => ?_ }, hm⟩
  have hn := hdone u (.inl (htm ▸ hu))
  exact ⟨hn _ List.mem_cons_self, fun o ho => hn o (List.mem_cons_of_mem _ ho)⟩

end Atomic

end UgmeeLua.Gc

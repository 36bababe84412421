import UgmeeLua.Lgc.Finalizing

namespace UgmeeLua.Gc

/-! ## Weak tables -/

section Clearing

variable {n : Nat} {A : GCObject → Prop} {g g' : State} {o c : GCObject}

theorem iscleared_spec (v : TValue) (iskey : Bool) (hA : ∀ c, v.gcvalue = some c → A c) :
    Marked A g (iscleared v iskey g).2 ∧
      ((iscleared v iskey g).1 = false → NonWhite (iscleared v iskey g).2 (gcvalues [v])) := by
  have hone : ∀ o, v.gcvalue = some o → g.white o = false → NonWhite g (gcvalues [v]) := by
    intro o hv hw c hc
    obtain ⟨w, hmem, hval⟩ := mem_gcvalues.mp hc
    rw [List.mem_singleton.mp hmem, hv] at hval
    rw [← Option.some.inj hval]
    exact hw
  cases v with
  | nil => exact ⟨Marked.refl A g, fun _ _ hc => absurd hc notMem_gcvalues_nil⟩
  | plain n => exact ⟨Marked.refl A g, fun _ _ hc => (List.not_mem_nil hc).elim⟩
  | string ts =>
    refine ⟨marked_string ts (hA _ rfl), fun _ c hc => ?_⟩
    rw [List.mem_singleton.mp hc]
    exact nonwhite_string ts
  | userdata u => exact ⟨Marked.refl A g, fun hf => hone _ rfl (Bool.or_eq_false_iff.mp hf).1⟩
  | function cl => exact ⟨Marked.refl A g, hone _ rfl⟩
  | table t => exact ⟨Marked.refl A g, hone _ rfl⟩
  | thread th => exact ⟨Marked.refl A g, hone _ rfl⟩
  | proto p => exact ⟨Marked.refl A g, hone _ rfl⟩

theorem gcvalues_cons (v : TValue) (l : List TValue) : gcvalues (v :: l) = gcvalues [v] ++ gcvalues l :=
  gcvalues_append [v] l

/-- The values that stay in an array are marked. -/
theorem cleararray_spec {l : List TValue} (hA : ∀ c ∈ gcvalues l, A c) :
    Marked A g (cleararray l g).2 ∧ NonWhite (cleararray l g).2 (gcvalues (cleararray l g).1) ∧
      ∀ c ∈ gcvalues (cleararray l g).1, c ∈ gcvalues l := by
  induction l with
  | nil => exact ⟨Marked.refl A g, fun _ hc => (List.not_mem_nil hc).elim, fun _ hc => hc⟩
  | cons v l ih =>
    rw [gcvalues_cons] at hA
    obtain ⟨hm, hn, hsub⟩ := ih fun c hc => hA c (List.mem_append_right _ hc)
    obtain ⟨hm1, hn1⟩ := iscleared_spec (g := (cleararray l g).2) (A := A) v false fun c hc =>
      hA c (List.mem_append_left _ (mem_gcvalues.mpr ⟨v, List.mem_singleton_self v, hc⟩))
    rw [cleararray]
    refine ⟨hm.trans hm1, fun c hc => ?_, fun c hc => ?_⟩
    · simp only at hc ⊢
      rw [gcvalues_cons] at hc
      rcases List.mem_append.mp hc with hc | hc
      · split_ifs at hc with hcleared
        · exact absurd hc notMem_gcvalues_nil
        · exact hn1 (eq_false_of_ne_true hcleared) c hc
      · exact hm1.nonwhite (hn c hc)
    · simp only at hc
      rw [gcvalues_cons] at hc ⊢
      rcases List.mem_append.mp hc with hc | hc
      · split_ifs at hc with hcleared
        · exact absurd hc notMem_gcvalues_nil
        · exact List.mem_append_left _ hc
      · exact List.mem_append_right _ (hsub c hc)

theorem removeentry_val (nd : Node) : (removeentry nd).val = nd.val := by
  rw [removeentry]
  split_ifs <;> rfl

/-- A node that stays an entry is the one it was, and its key and its value are marked. -/
theorem clearnode_spec {nd : Node} (hA : nd.val ≠ .nil → ∀ c ∈ gcvalues [nd.key, nd.val], A c) :
    Marked A g (clearnode nd g).2 ∧ ((clearnode nd g).1.val ≠ .nil →
      (clearnode nd g).1 = nd ∧ NonWhite (clearnode nd g).2 (gcvalues [nd.key, nd.val])) := by
  rw [clearnode]
  by_cases hempty : nd.isEmpty = true
  · rw [if_pos hempty]
    exact ⟨Marked.refl A g, fun hval => absurd (of_decide_eq_true hempty) hval⟩
  · rw [if_neg hempty]
    have hval : nd.val ≠ .nil := fun hnil => hempty (decide_eq_true hnil)
    have hA := hA hval
    rw [gcvalues_cons] at hA
    obtain ⟨hm, hn⟩ := iscleared_spec (g := g) (A := A) nd.key true fun c hc =>
      hA c (List.mem_append_left _ (mem_gcvalues.mpr ⟨_, List.mem_singleton_self _, hc⟩))
    obtain ⟨hm1, hn1⟩ := iscleared_spec (g := (iscleared nd.key true g).2) (A := A) nd.val false
      fun c hc => hA c (List.mem_append_right _ (mem_gcvalues.mpr ⟨_, List.mem_singleton_self _, hc⟩))
    have hremoved : (removeentry { nd with val := .nil }).val = .nil := removeentry_val _
    generalize hkey : iscleared nd.key true g = r at hm hn hm1 hn1
    obtain ⟨clearedkey, g1⟩ := r
    cases clearedkey with
    | true => exact ⟨hm, fun hne => absurd hremoved hne⟩
    | false =>
      simp only at hm hn hm1 hn1 ⊢
      generalize hvalue : iscleared nd.val false g1 = r at hm1 hn1
      obtain ⟨clearedval, g2⟩ := r
      cases clearedval with
      | true => exact ⟨hm.trans hm1, fun hne => absurd hremoved hne⟩
      | false =>
        refine ⟨hm.trans hm1, fun _ => ⟨rfl, fun c hc => ?_⟩⟩
        rw [gcvalues_cons] at hc
        rcases List.mem_append.mp hc with hc | hc
        · exact hm1.nonwhite (hn trivial c hc)
        · exact hn1 rfl c hc

theorem clearnodes_spec {l : List Node} (hA : ∀ nd ∈ l, nd.val ≠ .nil → ∀ c ∈ gcvalues [nd.key, nd.val], A c) :
    Marked A g (clearnodes l g).2 ∧ ∀ nd ∈ (clearnodes l g).1, nd.val ≠ .nil →
      nd ∈ l ∧ NonWhite (clearnodes l g).2 (gcvalues [nd.key, nd.val]) := by
  induction l with
  | nil => exact ⟨Marked.refl A g, fun _ hnd => (List.not_mem_nil hnd).elim⟩
  | cons nd l ih =>
    obtain ⟨hm, hn⟩ := ih fun nd' hnd' => hA nd' (List.mem_cons_of_mem _ hnd')
    obtain ⟨hm1, hn1⟩ := clearnode_spec (g := (clearnodes l g).2) (A := A) (hA nd List.mem_cons_self)
    rw [clearnodes]
    refine ⟨hm.trans hm1, fun nd' hnd' hval => ?_⟩
    rcases List.mem_cons.mp hnd' with rfl | hnd'
    · obtain ⟨hsame, hmarked⟩ := hn1 hval
      simp only
      rw [hsame]
      exact ⟨List.mem_cons_self, hmarked⟩
    · exact ⟨List.mem_cons_of_mem _ (hn nd' hnd' hval).1, hm1.nonwhites (hn nd' hnd' hval).2⟩

/-- What `cleartable` does: strings are marked, and entries go. -/
structure Clears (g g' : State) : Prop where
  phase : ∀ n, Phase n Nowhere g → Phase n Nowhere g'
  marches : Marches g g'
  others : ∀ o, (∀ ts, o ≠ .string ts) → g'.marked o = g.marked o

theorem Clears.refl (g : State) : Clears g g := ⟨fun _ h => h, Marches.rfl g, fun _ _ => rfl⟩

theorem Clears.trans {g'' : State} (h : Clears g g') (h' : Clears g' g'') : Clears g g'' :=
  ⟨fun n hp => h'.phase n (h.phase n hp), h.marches.trans h'.marches, fun o ho => (h'.others o ho).trans (h.others o ho)⟩

section Others

variable (ho : ∀ ts, o ≠ .string ts)

include ho

theorem iscleared_others (v : TValue) (iskey : Bool) : (iscleared v iskey g).2.marked o = g.marked o := by
  cases v with
  | string ts => exact marked_mark_other (ho ts)
  | nil => rfl
  | plain n => rfl
  | userdata u => rfl
  | function cl => rfl
  | table t => rfl
  | thread th => rfl
  | proto p => rfl

theorem cleararray_others {l : List TValue} : (cleararray l g).2.marked o = g.marked o := by
  induction l with
  | nil => rfl
  | cons v l ih =>
    rw [cleararray]
    exact (iscleared_others ho _ _).trans ih

theorem clearnode_others {nd : Node} : (clearnode nd g).2.marked o = g.marked o := by
  rw [clearnode]
  split_ifs with hempty
  · rfl
  · have hkey := iscleared_others (g := g) ho nd.key true
    generalize iscleared nd.key true g = r at hkey
    obtain ⟨clearedkey, g1⟩ := r
    cases clearedkey with
    | true => exact hkey
    | false =>
      have hval := iscleared_others (g := g1) ho nd.val false
      simp only
      generalize iscleared nd.val false g1 = r at hval
      obtain ⟨clearedval, g2⟩ := r
      cases clearedval with
      | true => exact hval.trans hkey
      | false => exact hval.trans hkey

theorem clearnodes_others {l : List Node} : (clearnodes l g).2.marked o = g.marked o := by
  induction l with
  | nil => rfl
  | cons nd l ih =>
    rw [clearnodes]
    exact (clearnode_others ho).trans ih

end Others

/-- `cleartable` on a weak table: what it still refers to is marked. -/
theorem cleartable_spec {t : Nat} (hphase : Phase n Nowhere g) (hin : .table t ∈ g.objects) :
    Clears g (cleartable t g) ∧ (WeakDone g t →
      NonWhite (cleartable t g) (refs (cleartable t g).heap (.table t))) := by
  have hclosed : ∀ c ∈ (g.heap.table t).refs false false, c ∈ g.objects := hphase.closed _ hin
  have harray : ∀ c ∈ gcvalues (g.heap.table t).array, c ∈ g.objects := fun c hc =>
    hclosed c (Table.mem_refs.mpr (.inr (.inl ⟨rfl, hc⟩)))
  have hnodes : ∀ nd ∈ (g.heap.table t).node, nd.val ≠ .nil → ∀ c ∈ gcvalues [nd.key, nd.val], c ∈ g.objects := by
    intro nd hnd hval c hc
    refine hclosed c (Table.mem_refs.mpr (.inr (.inr ⟨nd, hnd, hval, ?_⟩)))
    obtain ⟨v, hv, heq⟩ := mem_gcvalues.mp hc
    rcases List.mem_cons.mp hv with rfl | hv
    · exact .inl ⟨rfl, heq⟩
    · rw [List.mem_singleton.mp hv] at heq
      exact .inr ⟨rfl, heq⟩
  -- The array part is cleared where the values are weak.
  let r1 : List TValue × State :=
    if testbit (g.marked (.table t)) VALUEWEAKBIT then cleararray (g.heap.table t).array g else ((g.heap.table t).array, g)
  have hr1 : Marked (· ∈ g.objects) g r1.2 ∧ (valueweak g t = true → NonWhite r1.2 (gcvalues r1.1)) ∧
      (∀ c ∈ gcvalues r1.1, c ∈ gcvalues (g.heap.table t).array) ∧
      ∀ o, (∀ ts, o ≠ .string ts) → r1.2.marked o = g.marked o := by
    simp only [r1]
    split_ifs with hweak
    · obtain ⟨hm, hn, hsub⟩ := cleararray_spec (g := g) harray
      exact ⟨hm, fun _ => hn, hsub, fun _ ho => cleararray_others ho⟩
    · exact ⟨Marked.refl _ g, fun htrue => absurd htrue hweak, fun _ hc => hc, fun _ _ => rfl⟩
  obtain ⟨hm1, hn1, hsub1, hother1⟩ := hr1
  obtain ⟨hm2, hn2⟩ := clearnodes_spec (g := r1.2) hnodes
  let r2 := clearnodes (g.heap.table t).node r1.2
  have hm := hm1.trans hm2
  have heq : cleartable t g = r2.2.setHeap (r2.2.heap.setTable t
      { g.heap.table t with array := r1.1, node := r2.1 }) := rfl
  have hheap : r2.2.heap = g.heap := hm.heap
  have htrims : Trims r2.2.heap (r2.2.heap.setTable t { g.heap.table t with array := r1.1, node := r2.1 }) := by
    rw [hheap]
    refine trims_setTable fun a b c hc => ?_
    rcases Table.mem_refs.mp hc with hmt | ⟨hb, harr⟩ | ⟨nd, hnd, hval, hrest⟩
    · exact Table.mem_refs.mpr (.inl hmt)
    · exact Table.mem_refs.mpr (.inr (.inl ⟨hb, hsub1 c harr⟩))
    · exact Table.mem_refs.mpr (.inr (.inr ⟨nd, (hn2 nd hnd hval).1, hval, hrest⟩))
  rw [heq]
  refine ⟨⟨fun k hk => (hk.marked hm).trim htrims, hm.marches.trans ⟨rfl, htrims, fun _ h => h, fun _ _ => rfl,
    fun _ => rfl, fun _ => rfl⟩, fun o ho => (clearnodes_others ho).trans (hother1 o ho)⟩, fun hdone c hc => ?_⟩
  change c ∈ ((r2.2.heap.setTable t { g.heap.table t with array := r1.1, node := r2.1 }).table t).refs false false at hc
  rw [Heap.table_self] at hc
  change r2.2.white c = false
  rcases Table.mem_refs.mp hc with hmt | ⟨-, harr⟩ | ⟨nd, hnd, hval, hrest⟩
  · exact hm.nonwhite (hdone c (Table.mem_refs.mpr (.inl hmt)))
  · cases hweak : valueweak g t with
    | true => exact hm2.nonwhite (hn1 hweak c harr)
    | false =>
      refine hm.nonwhite (hdone c (Table.mem_refs.mpr (.inr (.inl ⟨hweak, hsub1 c harr⟩))))
  · refine (hn2 nd hnd hval).2 c ?_
    rcases hrest with ⟨-, hkey⟩ | ⟨-, hvalue⟩
    · exact mem_gcvalues.mpr ⟨_, List.mem_cons_self, hkey⟩
    · exact mem_gcvalues.mpr ⟨_, List.mem_cons_of_mem _ List.mem_cons_self, hvalue⟩

theorem WeakDone.clears {t : Nat} (h : WeakDone g t) (hc : Clears g g') : WeakDone g' t := by
  rw [WeakDone, keyweak, valueweak, hc.others (.table t) (by simp)]
  intro c hmem
  exact hc.marches.nonwhite c (h c (hc.marches.trims.table t _ _ c hmem))

/-- What weak tables still refer to is marked. -/
theorem cleartables_spec {l : List Nat} (hphase : Phase n Nowhere g) (hl : ∀ t ∈ l, .table t ∈ g.objects ∧ WeakDone g t) :
    Clears g (marksAll cleartable l g) ∧ ∀ t ∈ l, NonWhite (marksAll cleartable l g)
      (refs (marksAll cleartable l g).heap (.table t)) := by
  induction l generalizing g with
  | nil => exact ⟨Clears.refl g, fun _ ht => (List.not_mem_nil ht).elim⟩
  | cons t l ih =>
    obtain ⟨hin, hdone⟩ := hl t List.mem_cons_self
    obtain ⟨hclears, hmarked⟩ := cleartable_spec hphase hin
    obtain ⟨hrest, hall⟩ := ih (hclears.phase n hphase) fun t' ht' => by
      obtain ⟨hin', hdone'⟩ := hl t' (List.mem_cons_of_mem _ ht')
      exact ⟨hclears.marches.objects ▸ hin', hdone'.clears hclears⟩
    refine ⟨hclears.trans hrest, fun t' ht' => ?_⟩
    rcases List.mem_cons.mp ht' with rfl | ht'
    · intro c hc
      exact hrest.marches.nonwhite c (hmarked hdone c (hrest.marches.trims.refs _ c hc))
    · exact hall t' ht'

end Clearing

/-! ## The beginning of a cycle -/

section Markroot

variable {n k : Nat} {g g' : State} {o c : GCObject}

/-- `luaC_fullgc` gives a mark phase up. -/
theorem resetsweep_inv (h : Inv g) : Inv (resetsweep g) :=
  ⟨⟨h.lists.nodup, h.lists.rootgc, h.lists.uvhead, h.lists.openupval, h.lists.opened, h.lists.onewhite, h.lists.fixed,
    h.lists.tmudata⟩, h.colour, h.live, h.roots, h.finalized, (by simp [resetsweep]), (by simp [resetsweep]),
    fun _ => ⟨rfl, fun _ hi => absurd hi (Nat.not_lt_zero _)⟩, (by simp [resetsweep])⟩

theorem Marches.restate (h : Marches g g') (s : GCState) : Marches { g with gcstate := s } { g' with gcstate := s } := by
  refine ⟨?_, h.trims, h.nonwhite, h.still, h.fixed, h.finalized⟩
  have hsame := h.same
  rw [hsame]

/-- Where all objects are new, or wait for their finalizer, nothing has to be traversed. -/
theorem phase_of_resting (h : Inv g) (hrest : ∀ o ∈ g.objects, Fresh g o ∨ Pending g o) :
    Phase 0 Nowhere { g with gray := [], grayagain := [], weak := [] } := by
  have hpend : ∀ o ∈ g.objects, g.black o = true → Pending g o := fun o ho hb => by
    refine (hrest o ho).resolve_left fun hf => ?_
    rw [hf.notblack h.onewhite] at hb
    cases hb
  have hnot : ∀ o ∈ g.objects, ¬ Dead g o := fun o ho => by
    rcases hrest o ho with hf | ⟨u, hu, rfl⟩
    · exact hf.not_dead h.onewhite
    · exact (h.roots _ (State.tmudata_mem_roots hu)).2
  have hnone : ∀ {n : Nat}, n + 1 ≤ 0 → False := fun hn => Nat.not_succ_le_zero _ hn
  refine ⟨fun o ho c hc => (h.live o ho (hnot o ho) c hc).1, fun o ho hb hp => absurd (hpend o ho hb) hp,
    fun o ho hw => ?_, fun o ho hw => ?_, fun o ho hb => ?_, fun o ho => (List.not_mem_nil ho).elim, List.nodup_nil,
    fun hn => (hnone hn).elim, fun hn => (hnone hn).elim, fun hn => (hnone hn).elim, fun hn => (hnone hn).elim⟩
  · rcases hrest o ho with hf | ⟨u, hu, rfl⟩
    · have hwhite := hf.white h.onewhite
      rw [show g.white o = false from hw] at hwhite
      cases hwhite
    · exact .inr hu
  · exact (h.fresh_of_white ho (hnot o ho) hw).notblack h.onewhite
  · obtain ⟨u, hu, rfl⟩ := hpend o ho hb
    exact id

theorem markroot_spec (h : Inv g) (hs : g.gcstate = .GCSpause ∨ g.gcstate = .GCSfinalize) :
    Inv (markroot g) ∧ Marches { g with gcstate := .GCSpropagate } (markroot g) := by
  have hrest := h.resting hs
  have hnot : ∀ o ∈ g.objects, ¬ Dead g o := fun o ho => by
    rcases hrest o ho with hf | ⟨u, hu, rfl⟩
    · exact hf.not_dead h.onewhite
    · exact (h.roots _ (State.tmudata_mem_roots hu)).2
  have hphase := phase_of_resting h hrest
  generalize hg0 : ({ g with gray := [], grayagain := [], weak := [] } : State) = g0 at hphase
  have hheap : g0.heap = g.heap := by rw [← hg0]
  have hobjects : g0.objects = g.objects := by
    rw [← hg0]
    rfl
  have hmain : GCObject.thread g0.mainthread ∈ g0.objects := by
    rw [← hg0]
    exact mem_objects_iff.mpr (.inr (.inl rfl))
  have hroots : ∀ o ∈ g.roots, o ∈ g0.objects := fun o ho => hobjects ▸ (h.roots o ho).1
  have hthread : MarksRefs (· ∈ g0.objects) g0 _ _ := marks_object hphase.closed hmain
  generalize hg1 : markobject (.thread g0.mainthread) g0 = g1 at hthread
  have hclosed1 : Closed (· ∈ g0.objects) g1.heap := hthread.1.closed hphase.closed
  have hmain1 : g1.mainthread = g0.mainthread := by rw [hthread.1.same]
  have hgt : MarksRefs (· ∈ g0.objects) g1 (markvalue (g1.heap.thread g1.mainthread).gt g1) _ :=
    marks_value hclosed1 fun o ho => hclosed1 (.thread g1.mainthread) (hmain1.symm ▸ hmain) o
      (mem_gcvalues.mpr ⟨_, List.mem_cons_self, ho⟩)
  generalize hg2 : markvalue (g1.heap.thread g1.mainthread).gt g1 = g2 at hgt
  have hclosed2 : Closed (· ∈ g0.objects) g2.heap := hgt.1.closed hclosed1
  have hregistry2 : g2.registry = g.registry := by
    rw [hgt.1.same, hthread.1.same, ← hg0]
  have hreg : MarksRefs (· ∈ g0.objects) g2 (markvalue g2.registry g2) _ :=
    marks_value hclosed2 fun o ho => hroots o <|
      State.registry_mem_roots (mem_gcvalues.mpr ⟨_, List.mem_singleton_self _, hregistry2 ▸ ho⟩)
  generalize hg3 : markvalue g2.registry g2 = g3 at hreg
  have hmt3 : g3.mt = g.mt := by
    rw [hreg.1.same, hgt.1.same, hthread.1.same, ← hg0]
  have hmts : MarksRefs (· ∈ g0.objects) g3 (markmt g3) _ := markmt_marked fun t ht =>
    hroots _ (State.metatable_mem_roots (hmt3 ▸ ht))
  have hall := hthread.1.trans (hgt.1.trans (hreg.1.trans hmts.1))
  have heq : markroot g = { markmt g3 with gcstate := .GCSpropagate } := by
    rw [← hg3, ← hg2, ← hg1, ← hg0]
    rfl
  have hmarches : Marches g (markmt g3) := by
    have hzero : Marches g g0 := hg0 ▸ (Marches.rfl g).relist [] [] []
    exact hzero.trans hall.marches
  rw [heq]
  have hp := hphase.marked hall
  refine ⟨h.marking hnot ?_ (hmarches.restate .GCSpropagate) ?_ ?_, hmarches.restate .GCSpropagate⟩
  · exact hp.congr (by decide) rfl rfl rfl (fun _ => Iff.rfl) rfl rfl rfl (fun _ hu => hu) fun _ _ _ => ⟨rfl, rfl⟩
  · have hrest1 := hgt.1.trans (hreg.1.trans hmts.1)
    have hw := hrest1.nonwhite (hthread.2 _ (List.mem_singleton_self _))
    rwa [show g0.mainthread = g.mainthread by rw [← hg0]] at hw
  · rw [hregistry2] at hreg
    exact hmts.1.nonwhites hreg.2

theorem markroot_inv (h : Inv g) (hs : g.gcstate = .GCSpause ∨ g.gcstate = .GCSfinalize) : Inv (markroot g) :=
  (markroot_spec h hs).1

end Markroot

/-! ## The end of the mark phase -/

section Atomic

variable {n k : Nat} {g g' : State} {o c : GCObject}

theorem Phase.lower {X : GCObject → Prop} (h : Phase n X g) (hk : k ≤ n) : Phase k X g :=
  { h with
    remarked := fun hn => h.remarked (hn.trans hk)
    weak := fun hn => h.weak (hn.trans hk)
    again := fun hn => h.again (hn.trans hk)
    tmudata := fun hn => h.tmudata (hn.trans hk) }

theorem Inv.udata_nodup (h : Inv g) : g.udata.Nodup := by
  have hmap := (List.nodup_append.mp (List.nodup_append.mp h.lists.nodup).1).2.1
  exact (List.nodup_cons.mp hmap).2.of_map _

/-- All that is left to do is to clear the weak tables: what is marked refers to what is marked, but for their
weak sides. -/
theorem refs_of_settled (h : Phase 4 Nowhere g) (hg : g.gray = []) (ho : o ∈ g.objects) (hw : g.white o = false) :
    NonWhite g (refs g.heap o) ∨ ∃ t ∈ g.weak, o = .table t := by
  have hs := h.settled o ho hw
  have hblack : g.black o = true → ¬ Pending g o → NonWhite g (refs g.heap o) := fun hb hp =>
    h.black o ho hb hp id
  have hlisted : o ∈ g.grays → NonWhite g (refs g.heap o) ∨ ∃ t ∈ g.weak, o = .table t := by
    intro hin
    rw [State.grays, hg, List.nil_append] at hin
    rcases List.mem_append.mp hin with hin | hin
    · exact .inl (h.again (by decide) o hin id)
    · obtain ⟨t, ht, heq⟩ := List.mem_map.mp hin
      exact .inr ⟨t, ht, heq.symm⟩
  cases o with
  | string ts => exact .inl fun c hc => (List.not_mem_nil hc).elim
  | userdata u =>
    by_cases hu : u ∈ g.tmudata
    · exact .inl (h.tmudata (Nat.le_refl 4) u hu).2
    · refine .inl (hblack (hs.resolve_right hu) ?_)
      rintro ⟨u', hu', heq⟩
      cases heq
      exact hu hu'
  | upval uv =>
    rcases hs with hb | hopen
    · exact .inl (hblack hb (by rintro ⟨_, _, ⟨⟩⟩))
    · exact .inl (h.remarked (by decide) uv ho hopen hw)
  | function cl => exact hs.elim (fun hb => .inl (hblack hb (by rintro ⟨_, _, ⟨⟩⟩))) hlisted
  | table t => exact hs.elim (fun hb => .inl (hblack hb (by rintro ⟨_, _, ⟨⟩⟩))) hlisted
  | thread th => exact hs.elim (fun hb => .inl (hblack hb (by rintro ⟨_, _, ⟨⟩⟩))) hlisted
  | proto p => exact hs.elim (fun hb => .inl (hblack hb (by rintro ⟨_, _, ⟨⟩⟩))) hlisted

/-- What the flip of the white needs: marking is done. -/
structure Complete (g : State) : Prop where
  inv : Inv g
  gcstate : g.gcstate = .GCSpropagate
  refs : ∀ o ∈ g.objects, g.white o = false → NonWhite g (refs g.heap o)
  roots : NonWhite g g.roots
  finalized : ∀ u ∈ g.udata, g.white (.userdata u) = true → isfinalized (g.marked (.userdata u)) = true

/-- What is white is dead from now on. -/
theorem Complete.dead_iff (h : Complete g) (ho : o ∈ g.objects) : Dead (flipwhite g) o ↔ g.white o = true := by
  have hw := h.inv.onewhite
  have hback : otherwhite (flipwhite g).currentwhite = g.currentwhite := hw.otherwhite_otherwhite
  rw [Dead, hback]
  exact ⟨fun hd => isfresh.white hd hw,
    fun hwhite => h.inv.fresh_of_white ho ((h.inv.marks h.gcstate).alive o ho) hwhite⟩

theorem Complete.flip (h : Complete g) : Inv (flipwhite g) := by
  have hi := h.inv
  have hnot : ∀ c ∈ g.objects, g.white c = false → ¬ Dead (flipwhite g) c := fun c hc hw hd => by
    rw [(h.dead_iff hc).mp hd] at hw
    cases hw
  refine ⟨⟨hi.lists.nodup, hi.lists.rootgc, hi.lists.uvhead, hi.lists.openupval, hi.lists.opened,
    hi.lists.onewhite.otherwhite, hi.lists.fixed, hi.lists.tmudata⟩, fun o ho => ?_, fun o ho hd c hc => ?_,
    fun o ho => ?_, fun u hu hd => ?_, (by simp [flipwhite]), (by simp [flipwhite]), fun _ => ⟨rfl, fun _ hlt => absurd hlt (Nat.not_lt_zero _)⟩, (by simp [flipwhite])⟩
  · cases hw : g.white o with
    | true => exact .inr (.inl ((h.dead_iff ho).mpr hw))
    | false => exact .inr (.inr hw)
  · have hw : g.white o = false := eq_false_of_ne_true fun hw => hd ((h.dead_iff ho).mpr hw)
    have hin := (hi.live o ho ((hi.marks h.gcstate).alive o ho) c hc).1
    exact ⟨hin, hnot c hin (h.refs o ho hw c hc)⟩
  · exact ⟨(hi.roots o ho).1, hnot o (hi.roots o ho).1 (h.roots o ho)⟩
  · have hin : GCObject.userdata u ∈ g.objects := mem_objects_iff.mpr (.inr (.inr (.inr (.inr ⟨u, .inl hu, rfl⟩))))
    exact h.finalized u hu ((h.dead_iff hin).mp hd)

/-- `atomic` up to the userdata that need finalization keeps the invariant. -/
theorem Inv.remarkall (h : Inv g) (hs : g.gcstate = .GCSpropagate) :
    Phase 3 Nowhere (remarkall g) ∧ Marches g (remarkall g) ∧
      NonWhite (remarkall g) (.thread g.running :: g.mt.reduceOption.map .table) := by
  have hmarks := h.marks hs
  have hrooted : Rooted g := by
    exact ⟨(h.roots _ State.running_mem_roots).1, fun t ht => (h.roots _ (State.metatable_mem_roots ht)).1⟩
  have hopened : ∀ uv ∈ g.uvhead, GCObject.upval uv ∈ g.objects ∧ Exempt g.heap (.upval uv) := fun uv huv => by
    obtain ⟨th, level, hopen, -⟩ := h.lists.uvhead uv huv
    exact ⟨mem_objects_iff.mpr (.inr (.inr (.inr (.inl ⟨uv, huv, rfl⟩)))), th, level, hopen⟩
  obtain ⟨hp, hm, -, hroots⟩ := remarkall_phase hmarks.phase hrooted (fun uv huv => (hopened uv huv).1)
    (fun uv huv => (hopened uv huv).2) fun uv huv hex => hex.elim fun _ hex => hex.elim fun _ hopen => mem_uvhead h.lists huv hopen
  exact ⟨hp, hm, hroots⟩

/-- `atomic` completes the mark phase, with the objects that there are. -/
theorem atomic_complete (h : Inv g) (hs : g.gcstate = .GCSpropagate) :
    Complete (cleartables (preserveudata g)) ∧
      ∀ o, (o ∈ (cleartables (preserveudata g)).objects ↔ o ∈ g.objects) ∧
        testbit ((cleartables (preserveudata g)).marked o) FIXEDBIT = testbit (g.marked o) FIXEDBIT := by
  have hmarks := h.marks hs
  obtain ⟨hp1, hm1, hroots1⟩ := h.remarkall hs
  have hi1 := h.marches hs (hp1.lower (Nat.zero_le _)) hm1
  -- Userdata is found that is white, and has not been found before.
  generalize hg1 : remarkall g = g1 at hp1 hm1 hroots1 hi1
  have hs1 : g1.gcstate = .GCSpropagate := by
    rw [hm1.same]
    exact hs
  have hsame1 : g1.mainthread = g.mainthread ∧ g1.running = g.running ∧ g1.registry = g.registry ∧ g1.mt = g.mt := by
    rw [hm1.same]
    exact ⟨rfl, rfl, rfl, rfl⟩
  have hmoved : Moved g1 (luaCSeparateudata false g1) := luaCSeparateudata_moved hi1.udata_nodup
  have hspec : Separated false g1.udata { g1 with udata := [] } (luaCSeparateudata false g1) :=
    luaCSeparateudata_spec hi1.udata_nodup
  have hi2 : Inv (luaCSeparateudata false g1) := by
    refine hi1.moved hmoved hspec.udata fun u hu => ?_
    have hin : GCObject.userdata u ∈ (luaCSeparateudata false g1).objects :=
      mem_objects_iff.mpr (.inr (.inr (.inr (.inr ⟨u, .inr hu, rfl⟩))))
    refine ⟨?_, (hi1.marks hs1).alive _ (hmoved.objects.mem_iff.mp hin)⟩
    rw [hspec.tmudata] at hu
    rcases List.mem_append.mp hu with hu | hu
    · exact hmoved.finalized (hi1.lists.tmudata u hu)
    · obtain ⟨hin', hfound⟩ := List.mem_filter.mp hu
      rw [hspec.finalized u hin' (Bool.and_eq_true _ _ ▸ hfound).1]
      exact isfinalized_markfinalized
  have hfinalized2 : ∀ u ∈ (luaCSeparateudata false g1).udata, (luaCSeparateudata false g1).white (.userdata u) = true →
      isfinalized ((luaCSeparateudata false g1).marked (.userdata u)) = true := by
    intro u hu hw
    rw [hmoved.white] at hw
    have hin : u ∈ g1.udata := by
      rw [hspec.udata] at hu
      exact (List.mem_filter.mp hu).1
    cases hfound : found false g1 u with
    | true =>
      rw [hspec.finalized u hin hfound]
      exact isfinalized_markfinalized
    | false =>
      refine hmoved.finalized ?_
      rw [found, hw] at hfound
      exact eq_true_of_ne_false fun hnot => by simp [hnot] at hfound
  have hp2 := hp1.moved (Nat.le_refl 3) hmoved
  -- It is marked, and what it refers to.
  have hdef : preserveudata g = propagateall (marktmu (luaCSeparateudata false g1)) := by rw [preserveudata, hg1]
  obtain ⟨hp3, hm3⟩ := marktmu_phase hp2
  obtain ⟨hp4, hm4, hg4⟩ := propagateall_phase hp3
  have hm24 := hm3.trans hm4
  generalize hg2 : luaCSeparateudata false g1 = g2 at hmoved hspec hi2 hfinalized2 hp2 hp3 hm3 hp4 hm4 hg4 hm24 hdef
  have hs2 : g2.gcstate = .GCSpropagate := by
    rw [hmoved.same]
    exact hs1
  have hi4 := hi2.marches hs2 (hp4.lower (Nat.zero_le _)) hm24
  rw [← hdef] at hp4 hg4 hm24 hi4
  generalize preserveudata g = g4 at hp4 hg4 hm24 hi4
  have hs4 : g4.gcstate = .GCSpropagate := by
    rw [hm24.same]
    exact hs2
  -- The weak tables are cleared.
  have hweak : ∀ t ∈ g4.weak, GCObject.table t ∈ g4.objects ∧ WeakDone g4 t := fun t ht =>
    ⟨(hp4.listed _ (List.mem_append_right _ (List.mem_append_right _ (List.mem_map_of_mem ht)))).1,
      hp4.weak (by decide) t ht id⟩
  obtain ⟨hclears, hcleared⟩ := cleartables_spec hp4 hweak
  have hm5 := hclears.marches
  have hi5 := hi4.marches hs4 ((hclears.phase 4 hp4).lower (Nat.zero_le _)) hm5
  have hobjects5 : ∀ o, o ∈ (cleartables g4).objects ↔ o ∈ g.objects := fun o => by
    rw [cleartables, hm5.objects, hm24.objects, hmoved.objects.mem_iff, hm1.objects]
  have hfixed5 : ∀ o, testbit ((cleartables g4).marked o) FIXEDBIT = testbit (g.marked o) FIXEDBIT := fun o => by
    rw [cleartables, hm5.fixed, hm24.fixed, hmoved.fixed, hm1.fixed]
  refine ⟨?_, fun o => ⟨hobjects5 o, hfixed5 o⟩⟩
  refine ⟨hi5, ?_, fun o ho hw => ?_, fun o ho => ?_, fun u hu hw => ?_⟩
  · rw [cleartables, hm5.same]
    exact hs4
  · change o ∈ (marksAll cleartable g4.weak g4).objects at ho
    rw [hm5.objects] at ho
    by_cases hwas : g4.white o = false
    · rcases refs_of_settled hp4 hg4 ho hwas with hn | ⟨t, ht, rfl⟩
      · exact fun c hc => hm5.nonwhite c (hn c (hm5.trims.refs o c hc))
      · exact hcleared t ht
    · -- Only strings become gray now.
      cases o with
      | string ts => exact fun c hc => (List.not_mem_nil hc).elim
      | userdata u => exact absurd ((congrArg iswhite (hclears.others (.userdata u) (by simp))).symm.trans hw) hwas
      | upval uv => exact absurd ((congrArg iswhite (hclears.others (.upval uv) (by simp))).symm.trans hw) hwas
      | function cl => exact absurd ((congrArg iswhite (hclears.others (.function cl) (by simp))).symm.trans hw) hwas
      | table t => exact absurd ((congrArg iswhite (hclears.others (.table t) (by simp))).symm.trans hw) hwas
      | thread th => exact absurd ((congrArg iswhite (hclears.others (.thread th) (by simp))).symm.trans hw) hwas
      | proto p => exact absurd ((congrArg iswhite (hclears.others (.proto p) (by simp))).symm.trans hw) hwas
  · have hlater : ∀ c, g1.white c = false → (cleartables g4).white c = false := fun c hw => by
      rw [← hmoved.white] at hw
      exact hm5.nonwhite c (hm24.nonwhite c hw)
    have hsame5 : (cleartables g4).roots = .thread g.mainthread :: .thread g.running :: (gcvalues [g.registry] ++
        (g.mt.reduceOption.map .table ++ g4.tmudata.map .userdata)) := by
      obtain ⟨hmain, hrunning, hregistry, hmt⟩ := hsame1
      rw [cleartables, hm5.same]
      simp only [State.roots]
      rw [show g4.mainthread = g.mainthread by rw [hm24.same, hmoved.same]; exact hmain,
        show g4.running = g.running by rw [hm24.same, hmoved.same]; exact hrunning,
        show g4.registry = g.registry by rw [hm24.same, hmoved.same]; exact hregistry,
        show g4.mt = g.mt by rw [hm24.same, hmoved.same]; exact hmt]
    rw [hsame5] at ho
    rcases List.mem_cons.mp ho with rfl | ho
    · exact hlater _ (hm1.nonwhite _ hmarks.main)
    · rcases List.mem_cons.mp ho with rfl | ho
      · exact hlater _ (hroots1 _ List.mem_cons_self)
      · rcases List.mem_append.mp ho with ho | ho
        · exact hlater _ (hm1.nonwhite _ (hmarks.registry _ ho))
        · rcases List.mem_append.mp ho with ho | ho
          · exact hlater _ (hroots1 _ (List.mem_cons_of_mem _ ho))
          · obtain ⟨u, hu, rfl⟩ := List.mem_map.mp ho
            exact hm5.nonwhite _ (hp4.tmudata (Nat.le_refl 4) u hu).1
  · have hudata : (cleartables g4).udata = g2.udata := by
      rw [cleartables, hm5.same]
      simp only
      rw [hm24.same]
    rw [hudata] at hu
    change isfinalized ((marksAll cleartable g4.weak g4).marked (.userdata u)) = true
    rw [hm5.finalized, hm24.finalized]
    exact hfinalized2 u hu (hm24.white (hm5.white hw))

theorem atomic_inv (h : Inv g) (hs : g.gcstate = .GCSpropagate) : Inv (atomic g) := (atomic_complete h hs).1.flip

/-- A step of the collector. -/
theorem singlestep_inv (h : Inv g) : Inv (singlestep g) := by
  cases hs : g.gcstate with
  | GCSpause =>
    rw [singlestep, hs]
    exact markroot_inv h (.inl hs)
  | GCSpropagate =>
    rw [singlestep, hs]
    simp only
    split_ifs with hgray
    · exact atomic_inv h hs
    · obtain ⟨o, rest, hcons⟩ := List.exists_cons_of_ne_nil hgray
      have hstep := propagatemark_phase (h.marks hs).phase hcons
      exact h.marches hs hstep.phase hstep.marches
  | GCSsweepstring => exact sweepstring_inv h hs
  | GCSsweep => exact sweep_inv h hs
  | GCSfinalize =>
    rw [singlestep, hs]
    have hpause : Inv { g with gcstate := .GCSpause } :=
      h.restate (s := .GCSpause) (fun _ => h.resting (.inr hs)) (by simp) (by simp) (by simp)
    have hgctm : Inv (gctm g) := gctm_inv h (by rw [hs]; decide)
    simp only
    split
    · exact hpause
    · exact hgctm

end Atomic

end UgmeeLua.Gc

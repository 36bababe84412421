import UgmeeLua.Lgc.Finalizers

namespace UgmeeLua.Gc

/-! ## Only what can be reached is marked -/

section Sound

variable {A : GCObject → Prop} {hp hp' hp'' : Heap} {g g' : State} {o : GCObject}

/-- Entries of tables go, and slots of stacks. -/
structure Cuts (hp hp' : Heap) : Prop where
  refs : ∀ o, ∀ c ∈ refs hp' o, c ∈ refs hp o
  node : ∀ t, ∀ nd ∈ (hp'.table t).node, nd.val ≠ .nil → nd ∈ (hp.table t).node
  udata : hp'.udata = hp.udata

theorem Cuts.rfl (hp : Heap) : Cuts hp hp := ⟨fun _ _ h => h, fun _ _ h _ => h, Eq.refl _⟩

theorem Cuts.trans (h : Cuts hp hp') (h' : Cuts hp' hp'') : Cuts hp hp'' :=
  ⟨fun o c hc => h.refs o c (h'.refs o c hc), fun t nd hnd hval => h.node t nd (h'.node t nd hnd hval) hval,
    h'.udata.trans h.udata⟩

theorem cuts_clearstack (hp : Heap) (th : Nat) : Cuts hp (hp.setThread th (clearstack (hp.thread th))) :=
  ⟨(trims_clearstack hp th).refs, fun _ _ h _ => h, Eq.refl _⟩

theorem cuts_removeempty (t : Nat) (g : State) : Cuts g.heap (removeempty t g).heap := by
  refine ⟨(trims_removeempty t g).refs, fun t' nd hnd hval => ?_, Eq.refl _⟩
  by_cases heq : t' = t
  · subst heq
    rw [removeempty, Heap.table_self] at hnd
    obtain ⟨nd', hnd', heq⟩ := List.mem_map.mp hnd
    by_cases hempty : nd'.isEmpty = true
    · rw [if_pos hempty] at heq
      have hnil : nd'.val = .nil := of_decide_eq_true hempty
      exact absurd ((congrArg Node.val heq).symm.trans ((removeentry_val nd').trans hnil)) hval
    · rw [if_neg hempty] at heq
      exact heq ▸ hnd'
  · rw [removeempty, Heap.table_other _ _ heq] at hnd
    exact hnd

/-- What is marked, or is to be traversed, is in `A`, which has the roots and what objects referred to at the
beginning. -/
structure Sound (A : GCObject → Prop) (hp : Heap) (g : State) : Prop where
  closed : Closed A hp
  cuts : Cuts hp g.heap
  roots : ∀ o ∈ g.roots, A o
  marked : ∀ o ∈ g.objects, g.white o = false → A o
  grays : ∀ o ∈ g.grays, A o

theorem Sound.heap (h : Sound A hp g) : Closed A g.heap := fun o ho c hc => h.closed o ho c (h.cuts.refs o c hc)

theorem Sound.mark (h : Sound A hp g) (hm : Marked A g g') : Sound A hp g' := by
  obtain ⟨new, hgrays, -, hnew⟩ := hm.grays
  refine ⟨h.closed, hm.heap ▸ h.cuts, ?_, fun o ho hn => ?_, fun o ho => ?_⟩
  · have hroots : g'.roots = g.roots := by
      rw [hm.same]
      rfl
    rw [hroots]
    exact h.roots
  · rw [hm.objects] at ho
    cases hw : g.white o with
    | false => exact h.marked o ho hw
    | true => exact (hm.newly o hw hn).1
  · rw [hgrays] at ho
    rcases List.mem_append.mp ho with ho | ho
    · exact (hm.newly o (hnew o ho).1 (hnew o ho).2.1).1
    · exact h.grays o ho

/-- An object that is marked gets another mark. -/
theorem Sound.remark {f : BitVec 8 → BitVec 8} (h : Sound A hp g) (hA : A o) : Sound A hp (g.mark o f) := by
  refine ⟨h.closed, h.cuts, h.roots, fun c hc hn => ?_, h.grays⟩
  by_cases heq : c = o
  · exact heq ▸ hA
  · rw [white_mark_other heq] at hn
    exact h.marked c hc hn

theorem Sound.relist {a b : List GCObject} {c : List Nat} (h : Sound A hp g)
    (hl : ∀ o ∈ a ++ (b ++ c.map GCObject.table), A o) :
    Sound A hp { g with gray := a, grayagain := b, weak := c } :=
  ⟨h.closed, h.cuts, h.roots, h.marked, hl⟩

theorem Sound.cut {hp' : Heap} (h : Sound A hp g) (hc : Cuts g.heap hp') : Sound A hp (g.setHeap hp') :=
  ⟨h.closed, h.cuts.trans hc, h.roots, h.marked, h.grays⟩

/-- A loop each of whose steps is sound. -/
theorem sound_all {α : Type} {F : α → State → State} {l : List α} (h : Sound A hp g)
    (hF : ∀ x ∈ l, ∀ g1, Sound A hp g1 → Sound A hp (F x g1)) : Sound A hp (marksAll F l g) := by
  induction l generalizing g with
  | nil => exact h
  | cons x l ih => exact ih (hF x List.mem_cons_self g h) fun y hy => hF y (List.mem_cons_of_mem _ hy)

theorem Sound.value {v : TValue} (h : Sound A hp g) (hv : ∀ c, v.gcvalue = some c → A c) : Sound A hp (markvalue v g) :=
  h.mark (marks_value h.heap hv).1

theorem sound_traversestack {th : Nat} (h : Sound A hp g) (hA : A (.thread th)) : Sound A hp (traversestack th g) := by
  have hrefs := h.heap _ hA
  have hgt := h.value fun c hc => hrefs c (mem_gcvalues.mpr ⟨_, List.mem_cons_self, hc⟩)
  have hmarks := marks_value (g := g) h.heap fun c hc => hrefs c (mem_gcvalues.mpr ⟨_, List.mem_cons_self, hc⟩)
  have hstack := marks_values (l := (List.range (g.heap.thread th).top).map (g.heap.thread th).stack)
    (hmarks.1.closed h.heap) fun o ho => by
      obtain ⟨v, hv, ho⟩ := mem_gcvalues.mp ho
      exact hrefs o (mem_gcvalues.mpr ⟨v, List.mem_cons_of_mem _ hv, ho⟩)
  refine (hgt.mark hstack.1).cut ?_
  have hheap := (hmarks.1.trans hstack.1).heap
  have hcut := cuts_clearstack g.heap th
  rw [← hheap] at hcut
  rw [congrArg (·.thread th) hheap] at hcut
  exact hcut

theorem sound_traversetable {t : Nat} (h : Sound A hp g) (hA : A (.table t)) : Sound A hp (traversetable t g).2 := by
  have hrefs : ∀ c ∈ (g.heap.table t).refs false false, A c := h.heap _ hA
  have hmt : Sound A hp (markmetatable (g.heap.table t).metatable g) :=
    h.mark (marks_metatable fun mt hm => hrefs _ (Table.mem_refs.mpr (.inl ⟨mt, hm, rfl⟩))).1
  rw [traversetable]
  generalize markmetatable (g.heap.table t).metatable g = g1 at hmt ⊢
  simp only
  generalize weakmode g1 t = r
  obtain ⟨weakkey, weakvalue⟩ := r
  have hmode : Sound A hp (if (weakkey || weakvalue) = true then
      { g1.mark (.table t) (setweak weakkey weakvalue) with weak := t :: g1.weak } else g1) := by
    split_ifs
    · refine (hmt.remark hA).relist fun o ho => ?_
      rcases List.mem_append.mp ho with ho | ho
      · exact hmt.grays o (List.mem_append_left _ ho)
      · rcases List.mem_append.mp ho with ho | ho
        · exact hmt.grays o (List.mem_append_right _ (List.mem_append_left _ ho))
        · rcases List.mem_cons.mp ho with rfl | ho
          · exact hA
          · exact hmt.grays o (List.mem_append_right _ (List.mem_append_right _ ho))
    · exact hmt
  generalize (if (weakkey || weakvalue) = true then
      { g1.mark (.table t) (setweak weakkey weakvalue) with weak := t :: g1.weak } else g1) = g2 at hmode ⊢
  have harray : Sound A hp (if weakvalue = true then g2 else marksAll markvalue (g.heap.table t).array.reverse g2) := by
    split_ifs
    · exact hmode
    · refine sound_all hmode fun v hv g3 h3 => h3.value fun c hc => hrefs c ?_
      exact Table.mem_refs.mpr (.inr (.inl ⟨rfl, mem_gcvalues.mpr ⟨v, List.mem_reverse.mp hv, hc⟩⟩))
  by_cases hboth : (weakkey && weakvalue) = true
  · rw [if_pos hboth]
    exact hmode
  · rw [if_neg hboth]
    refine sound_all (harray.cut (cuts_removeempty t _)) fun nd hnd g3 h3 => ?_
    refine h3.mark (markentry_marks h3.heap fun hne c hc => hrefs c ?_).1
    refine Table.mem_refs.mpr (.inr (.inr ⟨nd, List.mem_reverse.mp hnd, fun hnil => ?_, ?_⟩))
    · rw [Node.isEmpty, hnil] at hne
      cases hne
    · obtain ⟨v, hv, hc⟩ := mem_gcvalues.mp hc
      rcases List.mem_pair.mp hv with rfl | rfl
      · exact .inl ⟨rfl, hc⟩
      · exact .inr ⟨rfl, hc⟩

theorem sound_propagatemark (h : Sound A hp g) : Sound A hp (propagatemark g) := by
  rw [propagatemark]
  cases hg : g.gray with
  | nil => exact h
  | cons o gray =>
    have hA : A o := h.grays o (by rw [State.grays, hg]; exact List.mem_cons_self)
    have hrest : ∀ c ∈ gray ++ (g.grayagain ++ g.weak.map .table), A c := fun c hc =>
      h.grays c (by rw [State.grays, hg]; exact List.mem_cons_of_mem _ hc)
    have hpop : Sound A hp { g.mark o gray2black with gray := gray } := (h.remark hA).relist hrest
    cases o with
    | table t =>
      have htable := sound_traversetable hpop hA
      simp only
      split_ifs
      · exact htable.remark hA
      · exact htable
    | function cl => exact hpop.mark (traverseclosure_marks hpop.heap hA).1
    | thread th =>
      refine sound_traversestack (Sound.relist ((h.remark hA).remark hA) fun c hc => ?_) hA
      rcases List.mem_append.mp hc with hc | hc
      · exact hrest c (List.mem_append_left _ hc)
      · rcases List.mem_cons.mp hc with rfl | hc
        · exact hA
        · exact hrest c (List.mem_append_right _ hc)
    | proto p => exact hpop.mark (traverseproto_marks hpop.heap hA).1
    | string ts => exact h.remark hA
    | userdata u => exact h.remark hA
    | upval uv => exact h.remark hA

theorem sound_propagateTimes {n : Nat} (h : Sound A hp g) : Sound A hp (propagateTimes n g) := by
  induction n generalizing g with
  | zero => exact h
  | succ n ih =>
    rw [propagateTimes]
    split_ifs
    · exact h
    · exact ih (sound_propagatemark h)

/-- An userdata has a metatable with a field for a finalizer. -/
def Finalizable (hp : Heap) (tmGc u : Nat) : Prop :=
  ∃ t, (hp.udata u).metatable = some t ∧ ∃ nd ∈ (hp.table t).node, nd.key = .string tmGc ∧ nd.val ≠ .nil

theorem Sound.finalizable {u : Nat} (h : Sound A hp g) (hu : hasgc g u = true) : Finalizable hp g.tmGc u := by
  rw [hasgc] at hu
  cases hmt : (g.heap.udata u).metatable with
  | none =>
    rw [hmt] at hu
    cases hu
  | some t =>
    rw [hmt, fasttm] at hu
    refine ⟨t, h.cuts.udata ▸ hmt, ?_⟩
    cases hfind : (g.heap.table t).node.find? fun n => n.key = .string g.tmGc ∧ n.dead = false with
    | none =>
      rw [getstr, hfind] at hu
      cases hu
    | some nd =>
      have hkey := List.find?_some hfind
      have hval : nd.val ≠ .nil := fun hnil => by
        rw [getstr, hfind, Option.map_some, Option.getD_some, hnil] at hu
        cases hu
      exact ⟨nd, h.cuts.node t nd (List.mem_of_find?_eq_some hfind) hval, (of_decide_eq_true hkey).1, hval⟩

theorem sound_remarkupvals (h : Sound A hp g) : Sound A hp (remarkupvals g) := by
  have hall : ∀ l : List Nat, ∀ g1 : State, (∀ uv ∈ l, uv ∈ g1.uvhead) → Sound A hp g1 →
      Sound A hp (marksAll remarkupval l g1) := by
    intro l
    induction l with
    | nil => exact fun _ _ h1 => h1
    | cons uv l ih =>
      intro g1 hl h1
      by_cases hgray : isgray (g1.marked (.upval uv)) = true
      · have hA : A (.upval uv) := by
          refine h1.marked _ (mem_objects_iff.mpr (.inr (.inr (.inr (.inl ⟨uv, hl uv List.mem_cons_self, rfl⟩))))) ?_
          rw [isgray, Bool.and_eq_true, Bool.not_eq_true', Bool.not_eq_true'] at hgray
          exact hgray.2
        have hm := (marks_value (v := g1.heap.upvalue uv) h1.heap fun c hc => h1.heap _ hA c
          (mem_gcvalues.mpr ⟨_, List.mem_singleton_self _, hc⟩)).1
        have hstep : remarkupval uv g1 = markvalue (g1.heap.upvalue uv) g1 := if_pos hgray
        change Sound A hp (marksAll remarkupval l (remarkupval uv g1))
        rw [hstep]
        refine ih _ (fun uv' huv' => ?_) (h1.mark hm)
        rw [hm.same]
        exact hl uv' (List.mem_cons_of_mem _ huv')
      · have hstep : remarkupval uv g1 = g1 := if_neg hgray
        change Sound A hp (marksAll remarkupval l (remarkupval uv g1))
        rw [hstep]
        exact ih g1 (fun uv' huv' => hl uv' (List.mem_cons_of_mem _ huv')) h1
  exact hall g.uvhead g (fun _ h => h) h

theorem Sound.root (h : Sound A hp g) (ho : o ∈ g.roots) : Sound A hp (markobject o g) :=
  h.mark (marks_object h.heap (h.roots o ho)).1

theorem sound_markmt (h : Sound A hp g) : Sound A hp (markmt g) := by
  exact h.mark (markmt_marked fun t ht => h.roots _ (State.metatable_mem_roots ht)).1

theorem sound_remarkall (h : Sound A hp g) : Sound A hp (remarkall g) := by
  have h1 : Sound A hp (propagateall (remarkupvals g)) := sound_propagateTimes (sound_remarkupvals h)
  generalize hg1 : propagateall (remarkupvals g) = g1 at h1
  have h2 : Sound A hp { g1 with gray := g1.weak.map .table, weak := [] } := h1.relist (b := g1.grayagain) fun o ho => by
    rcases List.mem_append.mp ho with ho | ho
    · exact h1.grays o (List.mem_append_right _ (List.mem_append_right _ ho))
    · rw [List.map_nil, List.append_nil] at ho
      exact h1.grays o (List.mem_append_right _ (List.mem_append_left _ ho))
  have h3 : Sound A hp (propagateall (markmt (markobject (.thread g1.running)
      { g1 with gray := g1.weak.map .table, weak := [] }))) :=
    sound_propagateTimes (sound_markmt (h2.root (List.mem_cons_of_mem _ List.mem_cons_self)))
  generalize hg2 : propagateall (markmt (markobject (.thread g1.running)
      { g1 with gray := g1.weak.map .table, weak := [] })) = g2 at h3
  have h4 : Sound A hp { g2 with gray := g2.grayagain, grayagain := [] } := h3.relist (c := g2.weak) fun o ho => by
    rw [List.nil_append] at ho
    exact h3.grays o (List.mem_append_right _ ho)
  have heq : remarkall g = propagateall { g2 with gray := g2.grayagain, grayagain := [] } := by
    rw [remarkall, ← hg2, ← hg1]
  rw [heq]
  exact sound_propagateTimes h4

/-- What is found is dead, and has a finalizer. -/
theorem sound_separate (h : Sound A hp g) (hl : g.udata.Nodup)
    (hA : ∀ u ∈ g.udata, isfinalized (g.marked (.userdata u)) = false → Finalizable hp g.tmGc u → A (.userdata u)) :
    Sound A hp (luaCSeparateudata false g) := by
  have hmoved : Moved g (luaCSeparateudata false g) := luaCSeparateudata_moved hl
  have hspec : Separated false g.udata { g with udata := [] } (luaCSeparateudata false g) := luaCSeparateudata_spec hl
  refine ⟨h.closed, hmoved.heap ▸ h.cuts, fun o ho => ?_, fun o ho hn => ?_, fun o ho => ?_⟩
  · have hrest : ∀ x : State, x.roots = (.thread x.mainthread :: .thread x.running :: (gcvalues [x.registry] ++
        x.mt.reduceOption.map .table)) ++ x.tmudata.map .userdata := fun x => by
      simp only [State.roots, List.cons_append, List.append_assoc]
    rw [hrest] at ho
    have hroots := h.roots
    rw [hrest] at hroots
    rcases List.mem_append.mp ho with ho | ho
    · rw [hspec.same] at ho
      exact hroots o (List.mem_append_left _ ho)
    · obtain ⟨u, hu, rfl⟩ := List.mem_map.mp ho
      rw [hspec.tmudata] at hu
      rcases List.mem_append.mp hu with hu | hu
      · exact hroots _ (List.mem_append_right _ (List.mem_map_of_mem hu))
      · obtain ⟨hin, hboth⟩ := List.mem_filter.mp hu
        obtain ⟨hfound, hgc⟩ := Bool.and_eq_true_iff.mp hboth
        refine hA u hin ?_ (h.finalizable hgc)
        rw [found] at hfound
        exact (Bool.not_eq_true' _).mp (Bool.and_eq_true_iff.mp hfound).2
  · rw [hmoved.white] at hn
    exact h.marked o (hmoved.objects.mem_iff.mp ho) hn
  · refine h.grays o ?_
    rw [hmoved.same] at ho
    exact ho

theorem sound_marktmu (h : Sound A hp g) : Sound A hp (marktmu g) := by
  have htm : ∀ u ∈ g.tmudata, A (.userdata u) := fun u hu => h.roots _ (State.tmudata_mem_roots hu)
  refine sound_all h fun u hu g1 h1 => ?_
  have hrefs : ∀ c ∈ (g1.heap.udata u).refs, A c := h1.heap _ (htm u hu)
  have hblack : Sound A hp ((g1.mark (.userdata u) (makewhite g1.currentwhite)).mark (.userdata u)
      fun m => gray2black (white2gray m)) := (h1.remark (htm u hu)).remark (htm u hu)
  have hmetatable : ∀ t, (g1.heap.udata u).metatable = some t → A (.table t) := fun t ht =>
    hrefs _ (List.mem_append_left _ (List.mem_map_of_mem (Option.mem_toList.mpr ht)))
  have hmt := hblack.mark (marks_metatable hmetatable).1
  exact hmt.mark (marks_table (hrefs _ (List.mem_append_right _ (List.mem_singleton_self _)))).1

/-- `cleartable` marks strings of the table. -/
theorem sound_cleartable {t : Nat} (h : Sound A hp g) (hA : A (.table t)) : Sound A hp (cleartable t g) := by
  have hrefs : ∀ c ∈ (g.heap.table t).refs false false, A c := h.heap _ hA
  have harray : ∀ c ∈ gcvalues (g.heap.table t).array, A c := fun c hc => hrefs c (Table.mem_refs.mpr (.inr (.inl ⟨rfl, hc⟩)))
  have hnodes : ∀ nd ∈ (g.heap.table t).node, nd.val ≠ .nil → ∀ c ∈ gcvalues [nd.key, nd.val], A c := by
    intro nd hnd hval c hc
    refine hrefs c (Table.mem_refs.mpr (.inr (.inr ⟨nd, hnd, hval, ?_⟩)))
    obtain ⟨v, hv, heq⟩ := mem_gcvalues.mp hc
    rcases List.mem_pair.mp hv with rfl | rfl
    · exact .inl ⟨rfl, heq⟩
    · exact .inr ⟨rfl, heq⟩
  let r1 : List TValue × State :=
    if testbit (g.marked (.table t)) VALUEWEAKBIT then cleararray (g.heap.table t).array g else ((g.heap.table t).array, g)
  have hr1 : Marked A g r1.2 ∧ ∀ c ∈ gcvalues r1.1, c ∈ gcvalues (g.heap.table t).array := by
    simp only [r1]
    split_ifs
    · obtain ⟨hm, -, hsub⟩ := cleararray_spec (g := g) harray
      exact ⟨hm, hsub⟩
    · exact ⟨Marked.refl _ g, fun _ hc => hc⟩
  obtain ⟨hm1, hsub1⟩ := hr1
  obtain ⟨hm2, hn2⟩ := clearnodes_spec (g := r1.2) hnodes
  let r2 := clearnodes (g.heap.table t).node r1.2
  have hheap : r2.2.heap = g.heap := (hm1.trans hm2).heap
  have heq : cleartable t g = r2.2.setHeap (r2.2.heap.setTable t
      { g.heap.table t with array := r1.1, node := r2.1 }) := rfl
  rw [heq]
  refine ((h.mark hm1).mark hm2).cut ?_
  have hsame : (clearnodes (g.heap.table t).node r1.2).2.heap = g.heap := hheap
  rw [hsame]
  have htrims : Trims g.heap (g.heap.setTable t { g.heap.table t with array := r1.1, node := r2.1 }) := by
    refine trims_setTable fun a b c hc => ?_
    rcases Table.mem_refs.mp hc with hmt | ⟨hb, harr⟩ | ⟨nd, hnd, hval, hrest⟩
    · exact Table.mem_refs.mpr (.inl hmt)
    · exact Table.mem_refs.mpr (.inr (.inl ⟨hb, hsub1 c harr⟩))
    · exact Table.mem_refs.mpr (.inr (.inr ⟨nd, (hn2 nd hnd hval).1, hval, hrest⟩))
  refine ⟨htrims.refs, fun t' nd hnd hval => ?_, rfl⟩
  by_cases heq : t' = t
  · subst heq
    rw [Heap.table_self] at hnd
    exact (hn2 nd hnd hval).1
  · rw [Heap.table_other _ _ heq] at hnd
    exact hnd

theorem sound_cleartables (h : Sound A hp g) : Sound A hp (cleartables g) := by
  refine sound_all h fun t ht g1 h1 => sound_cleartable h1 (h.grays _ ?_)
  exact List.mem_append_right _ (List.mem_append_right _ (List.mem_map_of_mem ht))

/-- What `atomic` leaves marked. -/
theorem atomic_sound (h : Sound A hp g) (hl : g.udata.Nodup) (htm : (remarkall g).tmGc = g.tmGc)
    (hA : ∀ u ∈ g.udata, isfinalized (g.marked (.userdata u)) = false → Finalizable hp g.tmGc u → A (.userdata u)) :
    Sound A hp (cleartables (preserveudata g)) := by
  have hk : Keeps g (remarkall g) := keeps_remarkall
  refine sound_cleartables (sound_propagateTimes (sound_marktmu (sound_separate (sound_remarkall h) (hk.udata.nodup hl) ?_)))
  intro u hu hfin hgc
  rw [htm] at hgc
  refine hA u (hk.udata.subset hu) (eq_false_of_ne_true fun hold => ?_) hgc
  rw [hk.finalized u hold] at hfin
  cases hfin

/-- The beginning of a cycle. -/
theorem markroot_sound (hclosed : Closed A g.heap) (hroots : ∀ o ∈ g.roots, A o)
    (hmarked : ∀ o ∈ g.objects, g.white o = false → A o) : Sound A g.heap (markroot g) := by
  have h0 : Sound A g.heap { g with gray := [], grayagain := [], weak := [] } :=
    ⟨hclosed, Cuts.rfl _, hroots, hmarked, fun _ ho => (List.not_mem_nil ho).elim⟩
  have h1 := h0.root (o := .thread g.mainthread) List.mem_cons_self
  have hm := (marks_object h0.heap (h0.roots (.thread g.mainthread) List.mem_cons_self)).1
  generalize hg1 : markobject (.thread g.mainthread) { g with gray := [], grayagain := [], weak := [] } = g1 at h1 hm
  have hmain : g1.mainthread = g.mainthread := by rw [hm.same]
  have h2 := h1.value (v := (g1.heap.thread g1.mainthread).gt) fun c hc =>
    h1.heap (.thread g1.mainthread) (h1.roots _ List.mem_cons_self) c (mem_gcvalues.mpr ⟨_, List.mem_cons_self, hc⟩)
  generalize hg2 : markvalue (g1.heap.thread g1.mainthread).gt g1 = g2 at h2
  have h3 := h2.value (v := g2.registry) fun c hc => h2.roots c <|
    State.registry_mem_roots (mem_gcvalues.mpr ⟨_, List.mem_singleton_self _, hc⟩)
  have h4 := sound_markmt h3
  have heq : markroot g = { markmt (markvalue g2.registry g2) with gcstate := .GCSpropagate } := by
    rw [← hg2, ← hg1]
    rfl
  rw [heq]
  exact ⟨h4.closed, h4.cuts, h4.roots, h4.marked, h4.grays⟩

end Sound

end UgmeeLua.Gc

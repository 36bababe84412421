import UgmeeLua.Lgc.Phases

namespace UgmeeLua.Gc

/-! ## Traversing keeps the invariant -/

section Pop

variable {n : Nat} {X X' : GCObject → Prop} {g g' : State} {o : GCObject} {rest : List GCObject}

/-- The gray objects are in other lists. -/
theorem Phase.relist {a b : List GCObject} {c : List Nat} (h : Phase n X g)
    (hperm : (a ++ (b ++ c.map GCObject.table)).Perm g.grays) (hX : ∀ o, X o → X' o)
    (hweak : 2 ≤ n → ∀ t ∈ c, ¬ X' (.table t) → t ∈ g.weak)
    (hagain : 3 ≤ n → ∀ o ∈ b, ¬ X' o → o ∈ g.grayagain) :
    Phase n X' { g with gray := a, grayagain := b, weak := c } := by
  refine { h with
    black := fun o ho hb hp hx => h.black o ho hb hp fun hX' => hx (hX o hX')
    settled := fun o ho hn => ?_
    listed := fun o ho => ?_
    nodup := hperm.nodup_iff.mpr h.nodup
    weak := fun hn t ht hx => h.weak hn t (hweak hn t ht hx) fun hX' => hx (hX _ hX')
    again := fun hn o ho hx => h.again hn o (hagain hn o ho hx) fun hX' => hx (hX _ hX') }
  · exact (h.settled o ho hn).imp id (fun _ hu _ => .inr hu) (fun _ _ hex => .inr hex) fun ho =>
      .inr (hperm.mem_iff.mpr ho)
  · obtain ⟨hin, hn, hkind, hb⟩ := h.listed o (hperm.mem_iff.mp ho)
    exact ⟨hin, hn, hkind, fun hx => hb fun hX' => hx (hX o hX')⟩

theorem white_mark_eq {f : BitVec 8 → BitVec 8} (h : iswhite (f (g.marked o)) = g.white o) :
    (g.mark o f).white = g.white := by
  rw [white_mark, h, Function.update_eq_self]

theorem black_mark (f : BitVec 8 → BitVec 8) :
    (g.mark o f).black = Function.update g.black o (isblack (f (g.marked o))) := by
  funext o'
  simp only [State.black, State.mark, Function.update_apply]
  split_ifs <;> rfl

theorem black_mark_eq {f : BitVec 8 → BitVec 8} (h : isblack (f (g.marked o)) = g.black o) :
    (g.mark o f).black = g.black := by
  rw [black_mark, h, Function.update_eq_self]

/-- An object that is being traversed changes its colour. -/
theorem Phase.blacken (h : Phase n (· = o) g) (hkind : ¬ Exempt g.heap o) (hs : Grays o) {f : BitVec 8 → BitVec 8}
    (hn : g.white o = false) (hf : iswhite (f (g.marked o)) = false)
    (hgray : isblack (f (g.marked o)) = true ∨ o ∈ g.grays) : Phase n (· = o) (g.mark o f) := by
  have hwhite : (g.mark o f).white = g.white := white_mark_eq (hf.trans hn.symm)
  have hblack : ∀ o', o' ≠ o → (g.mark o f).black o' = g.black o' := fun o' hne =>
    congrArg isblack (marked_mark_other hne)
  have hnon : NonWhite (g.mark o f) = NonWhite g := by
    funext l
    rw [NonWhite, hwhite, NonWhite]
  refine ⟨h.closed, fun o' ho hb hp hne => ?_, fun o' ho hw => ?_, fun o' ho hw => ?_, fun o' ho hb => ?_,
    fun o' ho => ?_, h.nodup, fun hn uv ho hopen hw => ?_, fun hn t ht hne => ?_, fun hn o' ho hne => ?_,
    fun hn u hu => ?_⟩
  · rw [hblack o' hne] at hb
    rw [hnon]
    exact h.black o' ho hb hp hne
  · rw [hwhite] at hw
    by_cases heq : o' = o
    · subst heq
      have hnew : (g.mark o' f).black o' = true ∨ o' ∈ g.grays :=
        hgray.imp_left fun hb => (congrFun (black_mark f) o').trans ((Function.update_self ..).trans hb)
      cases o' with
      | string ts => trivial
      | userdata u => exact hs.elim
      | upval uv => exact hs.elim
      | function cl => exact hnew
      | table t => exact hnew
      | thread th => exact hnew
      | proto p => exact hnew
    · exact (h.settled o' ho hw).imp (hblack o' heq).trans (fun _ hu _ => .inr hu) (fun _ _ hex => .inr hex) .inr
  · rw [hwhite] at hw
    have hne : o' ≠ o := fun heq => by
      rw [heq, hn] at hw
      cases hw
    rw [hblack o' hne]
    exact h.notblack o' ho hw
  · by_cases heq : o' = o
    · rw [heq]
      exact hkind
    · rw [hblack o' heq] at hb
      exact h.exempt o' ho hb
  · obtain ⟨hin, hw, hk, hb⟩ := h.listed o' ho
    refine ⟨hin, (congrFun hwhite o').trans hw, hk, fun hne => ?_⟩
    rw [hblack o' hne]
    exact hb hne
  · rw [hwhite] at hw
    rw [hnon]
    exact h.remarked hn uv ho hopen hw
  · have hmark : (g.mark o f).marked (.table t) = g.marked (.table t) := marked_mark_other hne
    rw [WeakDone, keyweak, valueweak, hmark, hnon]
    exact h.weak hn t ht hne
  · rw [hnon]
    exact h.again hn o' ho hne
  · rw [hwhite, hnon]
    exact h.tmudata hn u hu

theorem Phase.weaken (h : Phase n Nowhere g) (o : GCObject) : Phase n (· = o) g :=
  h.relist (List.Perm.refl _) (fun _ h => h.elim) (fun _ _ ht _ => ht) fun _ _ ho _ => ho

theorem notMem_tail (h : g.grays.Nodup) (hg : g.gray = o :: rest) :
    o ∉ rest ++ (g.grayagain ++ g.weak.map .table) := by
  rw [State.grays, hg, List.cons_append] at h
  exact (List.nodup_cons.mp h).1

/-- A black object leaves the gray list. -/
theorem Phase.unlist (h : Phase n (· = o) g) (hg : g.gray = o :: rest) (hb : g.black o = true) :
    Phase n (· = o) { g with gray := rest } := by
  have hmem : ∀ o', o' ∈ g.grays → o' = o ∨ o' ∈ rest ++ (g.grayagain ++ g.weak.map .table) := fun o' ho => by
    rw [State.grays, hg] at ho
    exact List.mem_cons.mp ho
  have hsub : ∀ o', o' ∈ rest ++ (g.grayagain ++ g.weak.map .table) → o' ∈ g.grays := fun o' ho => by
    rw [State.grays, hg]
    exact List.mem_cons_of_mem o ho
  refine { h with settled := fun o' ho hn => ?_, listed := fun o' ho => h.listed o' (hsub o' ho), nodup := ?_ }
  · refine (h.settled o' ho hn).imp id (fun _ hu _ => .inr hu) (fun _ _ hex => .inr hex) fun hin => ?_
    rcases hmem o' hin with heq | hin
    · exact .inl (heq ▸ hb)
    · exact .inr hin
  · have hnodup := h.nodup
    rw [State.grays, hg, List.cons_append] at hnodup
    exact (List.nodup_cons.mp hnodup).2

/-- The first gray object becomes black, and is to be traversed. -/
theorem Phase.pop (h : Phase n Nowhere g) (hg : g.gray = o :: rest) (hkind : ¬ Exempt g.heap o) :
    Phase n (· = o) { g.mark o gray2black with gray := rest } := by
  obtain ⟨-, hn, hgray, -⟩ := h.listed o (by rw [State.grays, hg]; exact List.mem_cons_self)
  have hblack := (h.weaken o).blacken (f := gray2black) hkind hgray hn
    (iswhite_gray2black.trans hn) (.inl isblack_gray2black)
  exact hblack.unlist hg ((congrFun (black_mark _) o).trans
    ((Function.update_self ..).trans isblack_gray2black))

/-- A thread goes from the gray list to `grayagain`. -/
theorem Phase.popThread (h : Phase n Nowhere g) (hg : g.gray = o :: rest) :
    Phase n (· = o) { (g.mark o gray2black).mark o black2gray with
      gray := rest, grayagain := o :: g.grayagain } := by
  obtain ⟨-, hn, -, hb⟩ := h.listed o (by rw [State.grays, hg]; exact List.mem_cons_self)
  have hsame : (g.mark o gray2black).mark o black2gray = g := by
    simp only [State.mark, Function.update_self, Function.update_idem]
    rw [black2gray_gray2black (hb id), Function.update_eq_self]
  rw [hsame]
  refine h.relist (List.perm_middle.trans ?_) (fun _ h => h.elim) (fun _ _ ht _ => ht) fun _ o' ho hne => ?_
  · rw [State.grays, hg]
    exact List.Perm.refl _
  · exact (List.mem_cons.mp ho).resolve_left hne

/-- A table that is being traversed goes into the list of weak tables. -/
theorem Phase.pushweak {t : Nat} (h : Phase n (· = .table t) g) (hin : .table t ∈ g.objects)
    (hn : g.white (.table t) = false) (hout : .table t ∉ g.grays) :
    Phase n (· = .table t) { g with weak := t :: g.weak } := by
  have hperm : (g.gray ++ (g.grayagain ++ (t :: g.weak).map GCObject.table)).Perm (.table t :: g.grays) := by
    rw [List.map_cons, State.grays, ← List.append_assoc, ← List.append_assoc]
    exact List.perm_middle
  refine { h with settled := fun o ho hw => ?_, listed := fun o ho => ?_, nodup := ?_, weak := ?_ }
  · exact (h.settled o ho hw).imp id (fun _ hu _ => .inr hu) (fun _ _ hex => .inr hex) fun hin =>
      .inr (hperm.mem_iff.mpr (List.mem_cons_of_mem _ hin))
  · rcases List.mem_cons.mp (hperm.mem_iff.mp ho) with heq | hold
    · rw [heq]
      exact ⟨hin, hn, trivial, fun hne => absurd rfl hne⟩
    · exact h.listed o hold
  · exact hperm.nodup_iff.mpr (List.nodup_cons.mpr ⟨hout, h.nodup⟩)
  · intro hn t' ht hne
    rcases List.mem_cons.mp ht with heq | hold
    · exact absurd (congrArg GCObject.table heq) hne
    · exact h.weak hn t' hold hne

end Pop

/-! ## What is traversed -/

section Traverse

variable {A : GCObject → Prop} {g : State}

theorem gcvalues_flatMap (l : List TValue) : l.flatMap (fun v => gcvalues [v]) = gcvalues l := by
  induction l with
  | nil => rfl
  | cons v l ih =>
    rw [List.flatMap_cons, ih, gcvalues, gcvalues, ← List.filterMap_append, List.singleton_append, gcvalues]

theorem gcvalues_append (l l' : List TValue) : gcvalues (l ++ l') = gcvalues l ++ gcvalues l' :=
  List.filterMap_append

theorem marks_values {l : List TValue} (hclosed : Closed A g.heap) (hA : ∀ o ∈ gcvalues l, A o) :
    MarksRefs A g (marksAll markvalue l g) (gcvalues l) := by
  rw [← gcvalues_flatMap]
  refine marks_all fun v hv g1 h1 => marks_value (h1 ▸ hclosed) fun o ho => hA o ?_
  exact mem_gcvalues.mpr ⟨v, hv, ho⟩

theorem marks_strings {l : List Nat} (hA : ∀ o ∈ l.map GCObject.string, A o) :
    MarksRefs A g (marksAll stringmark l g) (l.map .string) := by
  rw [List.map_eq_flatMap]
  refine marks_all fun ts hts g1 _ => ⟨marked_string ts (hA _ (List.mem_map_of_mem hts)), fun o ho => ?_⟩
  rw [List.mem_singleton.mp ho]
  exact nonwhite_string ts

theorem marks_objects {α : Type} {f : α → GCObject} {l : List α} (hclosed : Closed A g.heap)
    (hA : ∀ o ∈ l.map f, A o) :
    MarksRefs A g (marksAll (fun x => markobject (f x)) l g) (l.map f) := by
  rw [List.map_eq_flatMap]
  exact marks_all fun x hx g1 h1 => marks_object (h1 ▸ hclosed) (hA _ (List.mem_map_of_mem hx))

theorem traverseproto_marks {p : Nat} (hclosed : Closed A g.heap) (hA : A (.proto p)) :
    MarksRefs A g (traverseproto p g) (refs g.heap (.proto p)) := by
  have hrefs := hclosed _ hA
  simp only [refs, Proto.refs, List.mem_append, or_imp, forall_and] at hrefs
  obtain ⟨hsource, hk, hupvalues, hp, hlocvars⟩ := hrefs
  have h1 : MarksRefs A g _ _ := marks_strings hsource
  have h2 := h1.append (marks_values (h1.1.closed hclosed) hk)
  have h3 := h2.append (marks_strings hupvalues)
  have h4 := h3.append (marks_objects (h3.1.closed hclosed) hp)
  have h5 := h4.append (marks_strings hlocvars)
  simp only [List.append_assoc] at h5
  exact h5

theorem traverseclosure_marks {cl : Nat} (hclosed : Closed A g.heap) (hA : A (.function cl)) :
    MarksRefs A g (traverseclosure cl g) (refs g.heap (.function cl)) := by
  have hrefs := hclosed _ hA
  rw [refs] at hrefs ⊢
  cases hcl : g.heap.closure cl with
  | c env upvalue =>
    simp only [hcl, Closure.refs, List.mem_cons, forall_eq_or_imp] at hrefs
    have henv := marks_table (g := g) hrefs.1
    have hvalues := marks_values (henv.1.closed hclosed) hrefs.2
    simp only [traverseclosure, hcl]
    exact henv.append hvalues
  | l env p upvals =>
    simp only [hcl, Closure.refs, List.mem_cons, forall_eq_or_imp] at hrefs
    have henv := marks_table (g := g) hrefs.1
    have hp := marks_object (henv.1.closed hclosed) hrefs.2.1
    have hboth := henv.append hp
    have hupvals := marks_objects (hboth.1.closed hclosed) hrefs.2.2
    simp only [traverseclosure, hcl]
    exact hboth.append hupvals

end Traverse

/-! ## One object is traversed -/

section Marches

variable {n : Nat} {X : GCObject → Prop} {g g' g'' : State} {o : GCObject}

/-- A part of the mark phase: objects are marked, and references may go. -/
structure Marches (g g' : State) : Prop where
  same : g' = { g with
    heap := g'.heap, marked := g'.marked, gray := g'.gray, grayagain := g'.grayagain, weak := g'.weak }
  trims : Trims g.heap g'.heap
  nonwhite : ∀ o, g.white o = false → g'.white o = false
  still : ∀ o, g'.white o = true → g'.marked o = g.marked o
  fixed : ∀ o, testbit (g'.marked o) FIXEDBIT = testbit (g.marked o) FIXEDBIT
  finalized : ∀ u, isfinalized (g'.marked (.userdata u)) = isfinalized (g.marked (.userdata u))

theorem Marches.rfl (g : State) : Marches g g :=
  ⟨Eq.refl _, Trims.rfl _, fun _ h => h, fun _ _ => Eq.refl _, fun _ => Eq.refl _, fun _ => Eq.refl _⟩

theorem Marches.white (h : Marches g g') (ho : g'.white o = true) : g.white o = true := by
  rw [State.white, ← h.still o ho]
  exact ho

theorem Marches.trans (h : Marches g g') (h' : Marches g' g'') : Marches g g'' := by
  refine ⟨?_, h.trims.trans h'.trims, fun o ho => h'.nonwhite o (h.nonwhite o ho),
    fun o ho => (h'.still o ho).trans (h.still o (h'.white ho)), fun o => (h'.fixed o).trans (h.fixed o),
    fun u => (h'.finalized u).trans (h.finalized u)⟩
  rw [h'.same, h.same]

theorem Marches.objects (h : Marches g g') : g'.objects = g.objects := by
  rw [h.same]
  rfl

theorem Newly.keeps (h : Newly g g' o) {f : BitVec 8 → Bool} (hwhite : ∀ m, f (white2gray m) = f m)
    (hblack : ∀ m, f (gray2black m) = f m) : f (g'.marked o) = f (g.marked o) := by
  rcases h with ⟨hm, -⟩ | ⟨hm, -⟩
  · rw [hm, hwhite]
  · rw [hm, hblack, hwhite]

theorem Marked.keeps {A : GCObject → Prop} (h : Marked A g g') {f : BitVec 8 → Bool}
    (hwhite : ∀ m, f (white2gray m) = f m) (hblack : ∀ m, f (gray2black m) = f m) (o : GCObject) :
    f (g'.marked o) = f (g.marked o) := by
  cases hw : g.white o with
  | false => rw [h.kept o hw]
  | true =>
    cases hw' : g'.white o with
    | true => rw [h.still o hw']
    | false => exact (h.newly o hw hw').2.keeps hwhite hblack

theorem Marked.marches {A : GCObject → Prop} (h : Marked A g g') : Marches g g' := by
  refine ⟨?_, ?_, fun o => h.nonwhite, h.still, fun o => ?_, fun u => ?_⟩
  · rw [h.same]
  · rw [h.heap]
    exact Trims.rfl _
  · exact h.keeps (f := fun m => testbit m FIXEDBIT) (fun _ => fixed_white2gray) (fun _ => fixed_gray2black) o
  · exact h.keeps (f := isfinalized) (fun _ => isfinalized_white2gray) (fun _ => isfinalized_gray2black) _

theorem countP_add_length_le {α : Type} {p q : α → Bool} {l new : List α} (hnodup : new.Nodup)
    (hnew : ∀ x ∈ new, x ∈ l ∧ p x = true ∧ q x = false) (himp : ∀ x, q x = true → p x = true) :
    l.countP q + new.length ≤ l.countP p := by
  have hsplit : ∀ l : List α, l.countP p = l.countP q + (l.filter fun x => p x && !q x).length := by
    intro l
    induction l with
    | nil => rfl
    | cons x l ih =>
      have hx := himp x
      cases hp : p x <;> cases hq : q x <;> simp_all <;> omega
  have hsub : new.Subperm (l.filter fun x => p x && !q x) := hnodup.subperm fun x hx => by
    obtain ⟨hl, hp, hq⟩ := hnew x hx
    exact List.mem_filter.mpr ⟨hl, by rw [hp, hq]; rfl⟩
  have hlength := hsub.length_le
  rw [hsplit l]
  omega

theorem Marked.propagations_le (h : Marked (· ∈ g.objects) g g') : propagations g' ≤ propagations g := by
  obtain ⟨new, hgray, hnodup, hnew⟩ := h.gray
  have hcount : g.objects.countP g'.white + new.length ≤ g.objects.countP g.white :=
    countP_add_length_le hnodup (fun o ho => ⟨(h.newly o (hnew o ho).1 (hnew o ho).2.1).1,
      (hnew o ho).1, (hnew o ho).2.1⟩) fun o => h.white
  rw [propagations, propagations, h.objects, hgray, List.length_append]
  omega

/-- What traversing a part of an object does. -/
structure Traversal (n : Nat) (X : GCObject → Prop) (g g' : State) : Prop where
  phase : Phase n X g'
  marches : Marches g g'
  kept : ∀ o, g.white o = false → g'.marked o = g.marked o
  out : ∀ o, g.white o = false → o ∉ g.grays → o ∉ g'.grays
  again : g'.grayagain = g.grayagain
  weak : g'.weak = g.weak
  size : propagations g' ≤ propagations g

theorem Traversal.trans (h : Traversal n X g g') (h' : Traversal n X g' g'') : Traversal n X g g'' :=
  ⟨h'.phase, h.marches.trans h'.marches,
    fun o ho => (h'.kept o (h.marches.nonwhite o ho)).trans (h.kept o ho),
    fun o ho hout => h'.out o (h.marches.nonwhite o ho) (h.out o ho hout), h'.again.trans h.again,
    h'.weak.trans h.weak, h'.size.trans h.size⟩

theorem Traversal.rfl (h : Phase n X g) : Traversal n X g g :=
  ⟨h, Marches.rfl g, fun _ _ => Eq.refl _, fun _ _ h => h, Eq.refl _, Eq.refl _, Nat.le_refl _⟩

theorem Phase.traversal (h : Phase n X g) (hm : Marked (· ∈ g.objects) g g') : Traversal n X g g' := by
  refine ⟨h.marked hm, hm.marches, hm.kept, fun o => hm.notMem_grays, ?_, ?_, hm.propagations_le⟩
  · rw [hm.same]
  · rw [hm.same]

theorem Phase.trimmed {hp : Heap} (h : Phase n X g) (ht : Trims g.heap hp) : Traversal n X g (g.setHeap hp) :=
  ⟨h.trim ht, ⟨Eq.refl _, ht, fun _ h => h, fun _ _ => Eq.refl _, fun _ => Eq.refl _, fun _ => Eq.refl _⟩, fun _ _ => Eq.refl _, fun _ _ h => h,
    Eq.refl _, Eq.refl _, Nat.le_refl _⟩

theorem trims_setTable {hp : Heap} {t : Nat} {tb : Table}
    (h : ∀ a b, ∀ c ∈ tb.refs a b, c ∈ (hp.table t).refs a b) : Trims hp (hp.setTable t tb) := by
  have htable : ∀ t' a b, ∀ c ∈ ((hp.setTable t tb).table t').refs a b, c ∈ (hp.table t').refs a b := by
    intro t' a b c hc
    by_cases heq : t' = t
    · subst heq
      rw [Heap.table_self] at hc
      exact h a b c hc
    · rw [Heap.table_other _ _ heq] at hc
      exact hc
  refine ⟨fun o c hc => ?_, htable, rfl, fun _ => rfl⟩
  cases o with
  | table t' => exact htable t' _ _ c hc
  | string ts => exact hc
  | userdata u => exact hc
  | upval uv => exact hc
  | function cl => exact hc
  | thread th => exact hc
  | proto p => exact hc

theorem trims_removeempty (t : Nat) (g : State) : Trims g.heap (removeempty t g).heap := by
  refine trims_setTable fun a b c hc => ?_
  rw [Table.mem_refs] at hc ⊢
  refine hc.imp_right fun hc => hc.imp_right ?_
  rintro ⟨n, hn, hval, hside⟩
  obtain ⟨n0, hn0, rfl⟩ := List.mem_map.mp hn
  have hkey : ((if n0.isEmpty then removeentry n0 else n0).key = n0.key) := by
    unfold removeentry
    split_ifs <;> rfl
  have hsame : ((if n0.isEmpty then removeentry n0 else n0).val = n0.val) := by
    unfold removeentry
    split_ifs <;> rfl
  rw [hkey, hsame] at hside
  rw [hsame] at hval
  exact ⟨n0, hn0, hval, hside⟩

theorem stack_clearstack (x : Thread) (i : Nat) :
    (clearstack x).stack i = x.stack i ∨ (x.top ≤ i ∧ (clearstack x).stack i = .nil) := by
  unfold clearstack
  simp only
  split_ifs with h
  · exact .inr ⟨h.1, rfl⟩
  · exact .inl rfl

theorem trims_clearstack (hp : Heap) (th : Nat) : Trims hp (hp.setThread th (clearstack (hp.thread th))) := by
  have hthread : ∀ th', th' ≠ th → (hp.setThread th (clearstack (hp.thread th))).thread th' = hp.thread th' :=
    fun th' hne => Function.update_of_ne hne ..
  have hself : (hp.setThread th (clearstack (hp.thread th))).thread th = clearstack (hp.thread th) :=
    Function.update_self ..
  refine ⟨fun o c hc => ?_, fun _ _ _ _ hc => hc, rfl, fun th' => ?_⟩
  · cases o with
    | thread th' =>
      by_cases heq : th' = th
      · subst heq
        rw [refs, hself] at hc
        have hstack : (List.range (hp.thread th').top).map (clearstack (hp.thread th')).stack =
            (List.range (hp.thread th').top).map (hp.thread th').stack := by
          refine List.map_congr_left fun i hi => ?_
          rcases stack_clearstack (hp.thread th') i with hsame | ⟨htop, -⟩
          · exact hsame
          · exact absurd (List.mem_range.mp hi) (by omega)
        rw [Thread.refs, clearstack] at hc
        rw [clearstack] at hstack
        simp only [hstack] at hc
        exact hc
      · rw [refs, hthread th' heq] at hc
        exact hc
    | upval uv =>
      rw [refs, Heap.upvalue] at hc ⊢
      have hupval : (hp.setThread th (clearstack (hp.thread th))).upval uv = hp.upval uv := rfl
      rw [hupval] at hc
      cases huv : hp.upval uv with
      | closed v =>
        rw [huv] at hc
        exact hc
      | opened th' level =>
        rw [huv] at hc
        simp only at hc ⊢
        by_cases heq : th' = th
        · subst heq
          rw [hself] at hc
          rcases stack_clearstack (hp.thread th') level with hsame | ⟨-, hnil⟩
          · rw [hsame] at hc
            exact hc
          · rw [hnil] at hc
            cases hc
        · rw [hthread th' heq] at hc
          exact hc
    | string ts => exact hc
    | userdata u => exact hc
    | function cl => exact hc
    | table t => exact hc
    | proto p => exact hc
  · by_cases heq : th' = th
    · subst heq
      rw [hself]
      rfl
    · rw [hthread th' heq]

theorem NonWhite.marches {l : List GCObject} (h : NonWhite g l) (hm : Marches g g') : NonWhite g' l :=
  fun o ho => hm.nonwhite o (h o ho)

/-- A thread is traversed. -/
theorem traversestack_phase {th : Nat} (h : Phase n X g) (hin : .thread th ∈ g.objects) :
    Traversal n X g (traversestack th g) ∧
      NonWhite (traversestack th g) (refs (traversestack th g).heap (.thread th)) := by
  have hrefs := h.closed _ hin
  have hgt : MarksRefs (· ∈ g.objects) g _ _ := marks_value h.closed fun o ho => hrefs o
    (mem_gcvalues.mpr ⟨_, List.mem_cons_self, ho⟩)
  have hstack := hgt.append (marks_values (l := (List.range (g.heap.thread th).top).map (g.heap.thread th).stack)
    (hgt.1.closed h.closed) fun o ho => by
      obtain ⟨v, hv, ho⟩ := mem_gcvalues.mp ho
      exact hrefs o (mem_gcvalues.mpr ⟨v, List.mem_cons_of_mem _ hv, ho⟩))
  have hfirst := h.traversal hstack.1
  have htrim := trims_clearstack g.heap th
  have hheap := hstack.1.heap
  rw [← hheap] at htrim
  rw [congrArg (·.thread th) hheap] at htrim
  have hclear := hfirst.phase.trimmed htrim
  have hall : Traversal n X g (traversestack th g) := hfirst.trans hclear
  refine ⟨hall, fun c hc => hclear.marches.nonwhite c (hstack.2 c ?_)⟩
  have hold := hall.marches.trims.refs _ c hc
  rw [← gcvalues_append]
  exact hold

theorem markentry_marks {weakkey weakvalue : Bool} {nd : Node} {A : GCObject → Prop} (hclosed : Closed A g.heap)
    (hA : nd.isEmpty = false → ∀ o ∈ gcvalues [nd.key, nd.val], A o) :
    MarksRefs A g (markentry weakkey weakvalue nd g) (nd.refs weakkey weakvalue) := by
  rw [markentry, Node.refs]
  cases he : nd.isEmpty with
  | true => exact ⟨Marked.refl A g, fun o ho => (List.not_mem_nil ho).elim⟩
  | false =>
    have hrefs := hA he
    have hkey : ∀ o, nd.key.gcvalue = some o → A o := fun o ho =>
      hrefs o (mem_gcvalues.mpr ⟨_, List.mem_cons_self, ho⟩)
    have hval : ∀ o, nd.val.gcvalue = some o → A o := fun o ho =>
      hrefs o (mem_gcvalues.mpr ⟨_, List.mem_cons_of_mem _ (List.mem_singleton_self _), ho⟩)
    simp only [Bool.false_eq_true, if_false]
    cases weakkey with
    | true =>
      cases weakvalue with
      | true => exact ⟨Marked.refl A g, fun o ho => (List.not_mem_nil ho).elim⟩
      | false => exact marks_value hclosed hval
    | false =>
      have hfirst := marks_value hclosed hkey
      cases weakvalue with
      | true => exact hfirst
      | false =>
        have hboth := hfirst.append (marks_value (hfirst.1.closed hclosed) hval)
        rw [← gcvalues_append] at hboth
        exact hboth

/-- The entries of a table are traversed. -/
theorem entries_phase {t : Nat} {weakkey weakvalue : Bool} (h : Phase n X g) (hin : .table t ∈ g.objects) :
    let tb := g.heap.table t
    let g' := marksAll (markentry weakkey weakvalue) tb.node.reverse
      (removeempty t (if weakvalue then g else marksAll markvalue tb.array.reverse g))
    Traversal n X g g' ∧ NonWhite g' ((if weakvalue then [] else gcvalues tb.array.reverse) ++
      tb.node.reverse.flatMap (Node.refs weakkey weakvalue)) := by
  intro tb g'
  have hrefs : ∀ o ∈ (g.heap.table t).refs false false, o ∈ g.objects := h.closed _ hin
  have harray : MarksRefs (· ∈ g.objects) g (if weakvalue then g else marksAll markvalue tb.array.reverse g)
      (if weakvalue then [] else gcvalues tb.array.reverse) := by
    cases weakvalue with
    | true => exact ⟨Marked.refl _ g, fun o ho => (List.not_mem_nil ho).elim⟩
    | false =>
      refine marks_values h.closed fun o ho => hrefs o ?_
      refine Table.mem_refs.mpr (.inr (.inl ⟨rfl, ?_⟩))
      obtain ⟨v, hv, ho⟩ := mem_gcvalues.mp ho
      exact mem_gcvalues.mpr ⟨v, List.mem_reverse.mp hv, ho⟩
  generalize hg1 : (if weakvalue then g else marksAll markvalue tb.array.reverse g) = g1 at harray
  have h1 := h.traversal harray.1
  have h2 := h1.trans (h1.phase.trimmed (trims_removeempty t g1))
  have h3 : MarksRefs (· ∈ g.objects) (removeempty t g1) (marksAll (markentry weakkey weakvalue)
      tb.node.reverse (removeempty t g1)) (tb.node.reverse.flatMap (Node.refs weakkey weakvalue)) := by
    refine marks_all fun nd hnd g2 hg2 => markentry_marks ?_ fun hne o ho => hrefs o ?_
    · have hclosed := h2.phase.closed
      rw [h2.marches.objects] at hclosed
      rw [hg2]
      exact hclosed
    · refine Table.mem_refs.mpr (.inr (.inr ⟨nd, List.mem_reverse.mp hnd, ?_, ?_⟩))
      · intro hnil
        rw [Node.isEmpty, hnil] at hne
        cases hne
      · obtain ⟨v, hv, ho⟩ := mem_gcvalues.mp ho
        rcases List.mem_pair.mp hv with rfl | rfl
        · exact .inl ⟨rfl, ho⟩
        · exact .inr ⟨rfl, ho⟩
  rw [← h2.marches.objects] at h3
  have h4 := h2.phase.traversal h3.1
  have hall : Traversal n X g g' := by
    simp only [g', hg1]
    exact h2.trans h4
  refine ⟨hall, fun o ho => ?_⟩
  simp only [g', hg1]
  rcases List.mem_append.mp ho with ho | ho
  · exact h4.marches.nonwhite o (harray.2 o ho)
  · exact h3.2 o ho

/-- What traversing a table leaves: a weak table is in the list of weak tables, with its mode in its marks
and its other sides marked; everything in another table is marked. -/
structure TableTraversed (n : Nat) (t : Nat) (g : State) (r : Bool × State) : Prop where
  phase : Phase n (· = .table t) r.2
  marches : Marches g r.2
  size : propagations r.2 ≤ propagations g
  again : r.2.grayagain = g.grayagain
  mode : r.1 = ((weakmode g t).1 || (weakmode g t).2)
  marks : r.1 = true → t ∈ r.2.weak ∧ keyweak r.2 t = (weakmode g t).1 ∧ valueweak r.2 t = (weakmode g t).2
  done : NonWhite r.2 ((r.2.heap.table t).refs (weakmode g t).1 (weakmode g t).2)
  out : r.1 = false → .table t ∉ r.2.grays

theorem marches_mark {f : BitVec 8 → BitVec 8} (hn : g.white o = false)
    (hw : iswhite (f (g.marked o)) = iswhite (g.marked o))
    (hfixed : testbit (f (g.marked o)) FIXEDBIT = testbit (g.marked o) FIXEDBIT) (hkind : ∀ u, o ≠ .userdata u) :
    Marches g (g.mark o f) := by
  refine ⟨Eq.refl _, Trims.rfl _, fun o' ho => ?_, fun o' ho => ?_, fun o' => ?_, fun u => ?_⟩
  · rw [white_mark_eq hw]
    exact ho
  · rw [white_mark_eq hw] at ho
    refine marked_mark_other fun heq => ?_
    rw [heq, hn] at ho
    cases ho
  · by_cases heq : o' = o
    · subst heq
      rw [marked_mark_self]
      exact hfixed
    · rw [marked_mark_other heq]
  · rw [marked_mark_other fun heq => hkind u heq.symm]

theorem Marches.relist (h : Marches g g') (a b : List GCObject) (c : List Nat) :
    Marches g { g' with gray := a, grayagain := b, weak := c } := by
  refine ⟨?_, h.trims, h.nonwhite, h.still, h.fixed, h.finalized⟩
  have hsame := h.same
  rw [hsame]

/-- A table that turns out to be weak gets its mode, and goes into the list. -/
theorem setweak_phase {t : Nat} (wk wv : Bool) (h : Phase n (· = .table t) g) (hin : .table t ∈ g.objects)
    (hn : g.white (.table t) = false) (hb : g.black (.table t) = true) (hout : .table t ∉ g.grays) :
    let g' := { g.mark (.table t) (setweak wk wv) with weak := t :: g.weak }
    Phase n (· = .table t) g' ∧ Marches g g' ∧ propagations g' = propagations g ∧
      keyweak g' t = wk ∧ valueweak g' t = wv := by
  intro g'
  have hwhite : (g.mark (.table t) (setweak wk wv)).white = g.white := white_mark_eq (iswhite_setweak wk wv)
  have hmark := h.blacken (f := setweak wk wv) id trivial hn ((iswhite_setweak wk wv).trans hn)
    (.inl ((isblack_setweak wk wv).trans hb))
  refine ⟨hmark.pushweak hin ?_ hout, ?_, ?_, ?_, ?_⟩
  · rw [hwhite]
    exact hn
  · exact (marches_mark hn (iswhite_setweak wk wv) (fixed_setweak wk wv) fun _ h => by cases h).relist _ _ _
  · change (g.mark (.table t) (setweak wk wv)).objects.countP
      (g.mark (.table t) (setweak wk wv)).white + g.gray.length = _
    rw [hwhite]
    rfl
  · change testbit ((g.mark (.table t) (setweak wk wv)).marked (.table t)) KEYWEAKBIT = wk
    rw [marked_mark_self, keyweak_setweak]
  · change testbit ((g.mark (.table t) (setweak wk wv)).marked (.table t)) VALUEWEAKBIT = wv
    rw [marked_mark_self, valueweak_setweak]

theorem weakmode_congr (hheap : g'.heap = g.heap) (htm : g'.tmMode = g.tmMode) (t : Nat) :
    weakmode g' t = weakmode g t := by
  rw [weakmode, weakmode, hheap, htm]

theorem traversetable_phase {t : Nat} (h : Phase n (· = .table t) g) (hin : .table t ∈ g.objects)
    (hn : g.white (.table t) = false) (hb : g.black (.table t) = true) (hout : .table t ∉ g.grays) :
    TableTraversed n t g (traversetable t g) := by
  have hrefs : ∀ o ∈ (g.heap.table t).refs false false, o ∈ g.objects := h.closed _ hin
  have hmt : MarksRefs (· ∈ g.objects) g (markmetatable (g.heap.table t).metatable g) _ :=
    marks_metatable fun mt hmt => hrefs _ (Table.mem_refs.mpr (.inl ⟨mt, hmt, rfl⟩))
  have hfirst := h.traversal hmt.1
  have hheap := hmt.1.heap
  have hmode : weakmode (markmetatable (g.heap.table t).metatable g) t = weakmode g t := by
    refine weakmode_congr hheap ?_ t
    rw [hmt.1.same]
  have hkept := hfirst.kept _ hn
  obtain ⟨wk, wv, hwm⟩ : ∃ wk wv, weakmode g t = (wk, wv) := ⟨_, _, rfl⟩
  rw [hwm] at hmode
  have hstep : traversetable t g =
      let g1 := markmetatable (g.heap.table t).metatable g
      let g2 := if wk || wv then { g1.mark (.table t) (setweak wk wv) with weak := t :: g1.weak } else g1
      if wk && wv then (true, g2)
      else (wk || wv, marksAll (markentry wk wv) (g.heap.table t).node.reverse
        (removeempty t (if wv then g2 else marksAll markvalue (g.heap.table t).array.reverse g2))) := by
    simp only [traversetable, hmode]
  generalize markmetatable (g.heap.table t).metatable g = g1 at *
  have hn1 : g1.white (.table t) = false := hfirst.marches.nonwhite _ hn
  have hb1 : g1.black (.table t) = true := (congrArg isblack hkept).trans hb
  have hin1 : .table t ∈ g1.objects := by
    rw [hfirst.marches.objects]
    exact hin
  have hout1 := hfirst.out _ hn hout
  have hmetatable : ∀ g', Marches g1 g' → ∀ a b, a = true → b = true →
      NonWhite g' ((g'.heap.table t).refs a b) := by
    intro g' hm a b ha hb' c hc
    subst ha hb'
    have hold := hm.trims.table t true true c hc
    rw [hheap] at hold
    refine hm.nonwhite c (hmt.2 c ?_)
    rcases Table.mem_refs.mp hold with ⟨mt, hmt', rfl⟩ | ⟨hfalse, -⟩ | ⟨nd, -, -, ⟨hfalse, -⟩ | ⟨hfalse, -⟩⟩
    · rw [hmt']
      exact List.mem_singleton_self _
    · cases hfalse
    · cases hfalse
    · cases hfalse
  obtain ⟨hphase2, hmarches2, hsize2, hkey2, hvalue2⟩ := setweak_phase wk wv hfirst.phase hin1 hn1 hb1 hout1
  have hmode1 : (weakmode g t).1 = wk := by rw [hwm]
  have hmode2 : (weakmode g t).2 = wv := by rw [hwm]
  rw [hstep]
  simp only
  generalize hg2 : ({ g1.mark (.table t) (setweak wk wv) with weak := t :: g1.weak } : State) = g2 at *
  have hweak2 : t ∈ g2.weak := by
    rw [← hg2]
    exact List.mem_cons_self
  have hagain2 : g2.grayagain = g1.grayagain := by
    rw [← hg2]
    rfl
  have hheap2 : g2.heap = g1.heap := by
    rw [← hg2]
    rfl
  -- The entries, from the state with the mode in the marks.
  have hentries : ∀ g3, Phase n (· = .table t) g3 → Marches g1 g3 → g3.heap = g1.heap →
      let g' := marksAll (markentry wk wv) (g.heap.table t).node.reverse
        (removeempty t (if wv then g3 else marksAll markvalue (g.heap.table t).array.reverse g3))
      Traversal n (· = .table t) g3 g' ∧ NonWhite g' ((g'.heap.table t).refs wk wv) := by
    intro g3 h3 hm3 hheap3 g'
    have hin3 : .table t ∈ g3.objects := by
      rw [hm3.objects]
      exact hin1
    have hboth := @entries_phase n _ g3 t wk wv h3 hin3
    rw [hheap3, hheap] at hboth
    refine ⟨hboth.1, fun c hc => ?_⟩
    have hall := hm3.trans hboth.1.marches
    have hold := hall.trims.table t wk wv c hc
    rw [hheap, Table.refs] at hold
    rcases List.mem_append.mp hold with hold | hold
    · exact hall.nonwhite c (hmt.2 c hold)
    · exact hboth.2 c hold
  have hfinal : ∀ g3 g', Traversal n (· = .table t) g3 g' → Marches g g3 → propagations g3 ≤ propagations g →
      g3.grayagain = g.grayagain → NonWhite g' ((g'.heap.table t).refs wk wv) →
      (wk = true ∨ wv = true → t ∈ g3.weak ∧ keyweak g3 t = wk ∧ valueweak g3 t = wv) →
      (wk = false ∧ wv = false → .table t ∉ g3.grays) →
      TableTraversed n t g (wk || wv, g') := by
    intro g3 g' ht hm hsize hagain hdone hweak hout
    have hn3 : g3.white (.table t) = false := hm.nonwhite _ hn
    have hmark := ht.kept _ hn3
    refine ⟨ht.phase, hm.trans ht.marches, ht.size.trans hsize, ht.again.trans hagain, ?_, fun hw => ?_, ?_,
      fun hw => ht.out _ hn3 (hout (Bool.or_eq_false_iff.mp hw))⟩
    · rw [hwm]
    · obtain ⟨hmem, hkey, hvalue⟩ := hweak (Bool.or_eq_true_iff.mp hw)
      rw [hwm, keyweak, valueweak, hmark, ht.weak]
      exact ⟨hmem, hkey, hvalue⟩
    · rw [hwm]
      exact hdone
  have hm2 : Marches g g2 := hfirst.marches.trans hmarches2
  have hs2 : propagations g2 ≤ propagations g := hsize2.le.trans hfirst.size
  have ha2 : g2.grayagain = g.grayagain := hagain2.trans hfirst.again
  cases wk with
  | true =>
    cases wv with
    | true =>
      exact hfinal g2 g2 (Traversal.rfl hphase2) hm2 hs2 ha2 (hmetatable g2 hmarches2 true true rfl rfl)
        (fun _ => ⟨hweak2, hkey2, hvalue2⟩) fun h => by cases h.1
    | false =>
      obtain ⟨htrav, hdone⟩ := hentries g2 hphase2 hmarches2 hheap2
      exact hfinal g2 _ htrav hm2 hs2 ha2 hdone (fun _ => ⟨hweak2, hkey2, hvalue2⟩) fun h => by cases h.1
  | false =>
    cases wv with
    | true =>
      obtain ⟨htrav, hdone⟩ := hentries g2 hphase2 hmarches2 hheap2
      exact hfinal g2 _ htrav hm2 hs2 ha2 hdone (fun _ => ⟨hweak2, hkey2, hvalue2⟩) fun h => by cases h.2
    | false =>
      obtain ⟨htrav, hdone⟩ := hentries g1 hfirst.phase (Marches.rfl g1) rfl
      exact hfinal g1 _ htrav hfirst.marches hfirst.size hfirst.again hdone
        (fun h => by rcases h with h | h <;> cases h) fun _ => hout1

/-- `propagatemark` keeps the invariant, and leaves less to do. -/
structure Propagated (n : Nat) (g g' : State) : Prop where
  phase : Phase n Nowhere g'
  marches : Marches g g'
  size : propagations g' < propagations g

theorem propagations_pop {rest : List GCObject} (hg : g.gray = o :: rest) (hwhite : g'.white = g.white)
    (hobjects : g'.objects = g.objects) (hgray : g'.gray = rest) : propagations g' < propagations g := by
  rw [propagations, propagations, hwhite, hobjects, hgray, hg, List.length_cons]
  omega

theorem propagatemark_phase {rest : List GCObject} (h : Phase n Nowhere g) (hg : g.gray = o :: rest) :
    Propagated n g (propagatemark g) := by
  obtain ⟨hin, hn, hkind, hb⟩ := h.listed o (by rw [State.grays, hg]; exact List.mem_cons_self)
  have hwhite : (g.mark o gray2black).white = g.white := white_mark_eq iswhite_gray2black
  have hout : o ∉ rest ++ (g.grayagain ++ g.weak.map .table) := notMem_tail h.nodup hg
  let g0 : State := { g.mark o gray2black with gray := rest }
  have hn0 : g0.white o = false := (congrFun hwhite o).trans hn
  have hb0 : g0.black o = true := (congrArg isblack marked_mark_self).trans isblack_gray2black
  have hm0 : (∀ u, o ≠ .userdata u) → Marches g g0 := fun hne =>
    (marches_mark hn iswhite_gray2black fixed_gray2black hne).relist _ _ _
  have hs0 : propagations g0 < propagations g := propagations_pop hg hwhite rfl rfl
  -- A function or a prototype is black, and what it refers to is marked.
  have hdone : ∀ g', ¬ Exempt g.heap o → (∀ u, o ≠ .userdata u) → (∀ t, o ≠ .table t) →
      (Phase n (· = o) g0 → MarksRefs (· ∈ g0.objects) g0 g' (refs g0.heap o)) → Propagated n g g' := by
    intro g' hkind' hne hnt hmarks
    have h0 := h.pop hg hkind'
    have hrefs := hmarks h0
    have htrav := h0.traversal hrefs.1
    have hgone := htrav.out o hn0 hout
    refine ⟨htrav.phase.finish (fun _ => ?_) (fun hl => absurd hl hgone) (fun t _ heq => absurd heq (hnt t))
      fun hl => absurd ?_ hgone, (hm0 hne).trans htrav.marches, htrav.size.trans_lt hs0⟩
    · rw [hrefs.1.heap]
      exact hrefs.2
    · exact List.mem_append_right _ (List.mem_append_left _ hl)
  rw [propagatemark, hg]
  cases o with
  | string ts => exact hkind.elim
  | userdata u => exact hkind.elim
  | upval uv => exact hkind.elim
  | function cl =>
    exact hdone _ id (fun _ h => by cases h) (fun _ h => by cases h) fun h0 => traverseclosure_marks h0.closed hin
  | proto p =>
    exact hdone _ id (fun _ h => by cases h) (fun _ h => by cases h) fun h0 => traverseproto_marks h0.closed hin
  | thread th =>
    have h0 := h.popThread hg
    change Propagated n g (traversestack th { (g.mark (.thread th) gray2black).mark (.thread th) black2gray with
      gray := rest, grayagain := .thread th :: g.grayagain })
    generalize hgt : ({ (g.mark (.thread th) gray2black).mark (.thread th) black2gray with
      gray := rest, grayagain := .thread th :: g.grayagain } : State) = gt at h0 ⊢
    have hwt : gt.white = g.white := by
      rw [← hgt]
      exact (white_mark_eq iswhite_black2gray).trans hwhite
    have hbt : gt.black (.thread th) = false := by
      rw [← hgt]
      exact (congrArg isblack marked_mark_self).trans isblack_black2gray
    have hmt : Marches g gt := by
      rw [← hgt]
      exact ((marches_mark (o := .thread th) hn iswhite_gray2black fixed_gray2black fun _ h => by cases h).trans
        (marches_mark ((congrFun hwhite _).trans hn) iswhite_black2gray fixed_black2gray fun _ h => by cases h)).relist _ _ _
    have hst : propagations gt < propagations g :=
      propagations_pop hg hwt (by rw [← hgt]; rfl) (by rw [← hgt])
    have hint : .thread th ∈ gt.objects := by
      rw [hmt.objects]
      exact hin
    obtain ⟨htrav, hrefs⟩ := traversestack_phase h0 hint
    have hblack : (traversestack th gt).black (.thread th) = false :=
      (congrArg isblack (htrav.kept _ (hmt.nonwhite _ hn))).trans hbt
    exact ⟨htrav.phase.finish (fun _ => hrefs) (fun _ => hblack) (fun _ _ heq => by cases heq) fun _ => hrefs,
      hmt.trans htrav.marches, htrav.size.trans_lt hst⟩
  | table t =>
    have h0 := h.pop hg id
    have htrav := traversetable_phase h0 hin hn0 hb0 hout
    have hm : Marches g (traversetable t g0).2 := (hm0 fun _ h => by cases h).trans htrav.marches
    have hn' : (traversetable t g0).2.white (.table t) = false := hm.nonwhite _ hn
    have hagain : GCObject.table t ∉ (traversetable t g0).2.grayagain := by
      rw [htrav.again]
      exact fun hin => hout (List.mem_append_right _ (List.mem_append_left _ hin))
    have hmode := htrav.mode
    change Propagated n g (if (traversetable t g0).1 then (traversetable t g0).2.mark (.table t) black2gray
      else (traversetable t g0).2)
    cases hw : (traversetable t g0).1 with
    | false =>
      rw [hw] at hmode
      obtain ⟨hkey, hvalue⟩ := Bool.or_eq_false_iff.mp hmode.symm
      have hdone := htrav.done
      rw [hkey, hvalue] at hdone
      have hgone := htrav.out hw
      simp only [Bool.false_eq_true, if_false]
      refine ⟨htrav.phase.finish (fun _ => hdone) (fun hl => absurd hl hgone) (fun t' ht' heq => ?_)
        fun hl => absurd hl hagain, hm, htrav.size.trans_lt hs0⟩
      cases heq
      exact absurd (List.mem_append_right _ (List.mem_append_right _ (List.mem_map_of_mem ht'))) hgone
    | true =>
      obtain ⟨hmem, hkey, hvalue⟩ := htrav.marks hw
      have hgrays : GCObject.table t ∈ (traversetable t g0).2.grays :=
        List.mem_append_right _ (List.mem_append_right _ (List.mem_map_of_mem hmem))
      have hgray := htrav.phase.blacken (f := black2gray) id trivial hn' (iswhite_black2gray.trans hn')
        (.inr hgrays)
      have hwhite' : ((traversetable t g0).2.mark (.table t) black2gray).white = (traversetable t g0).2.white :=
        white_mark_eq iswhite_black2gray
      have hblack : ((traversetable t g0).2.mark (.table t) black2gray).black (.table t) = false :=
        (congrArg isblack marked_mark_self).trans isblack_black2gray
      simp only [if_true]
      refine ⟨hgray.finish (fun hb => ?_) (fun _ => hblack) (fun t' _ heq => ?_) fun hl => absurd hl hagain,
        hm.trans (marches_mark (o := .table t) hn' iswhite_black2gray fixed_black2gray fun _ h => by cases h), ?_⟩
      · rw [hblack] at hb
        cases hb
      · cases heq
        have hdone := htrav.done
        rw [← hkey, ← hvalue] at hdone
        rw [WeakDone, keyweak, valueweak, marked_mark_self, keyweak_black2gray, valueweak_black2gray, NonWhite,
          hwhite']
        exact hdone
      · refine lt_of_eq_of_lt ?_ (htrav.size.trans_lt hs0)
        rw [propagations, hwhite']
        rfl

theorem propagateTimes_phase {k : Nat} (h : Phase n Nowhere g) (hk : propagations g ≤ k) :
    Phase n Nowhere (propagateTimes k g) ∧ Marches g (propagateTimes k g) ∧ (propagateTimes k g).gray = [] := by
  induction k generalizing g with
  | zero =>
    have hlength : g.gray.length = 0 := by
      rw [propagations] at hk
      omega
    exact ⟨h, Marches.rfl g, List.length_eq_zero_iff.mp hlength⟩
  | succ k ih =>
    rw [propagateTimes]
    split_ifs with hg
    · exact ⟨h, Marches.rfl g, hg⟩
    · obtain ⟨o, rest, hcons⟩ := List.exists_cons_of_ne_nil hg
      have hstep := propagatemark_phase h hcons
      obtain ⟨hphase, hmarches, hgray⟩ := ih hstep.phase (by have := hstep.size; omega)
      exact ⟨hphase, hstep.marches.trans hmarches, hgray⟩

/-- `propagateall` keeps the invariant and leaves no gray objects to traverse. -/
theorem propagateall_phase (h : Phase n Nowhere g) :
    Phase n Nowhere (propagateall g) ∧ Marches g (propagateall g) ∧ (propagateall g).gray = [] :=
  propagateTimes_phase h (Nat.le_refl _)

end Marches

end UgmeeLua.Gc

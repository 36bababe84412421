import UgmeeLua.Lgc.Mutator

namespace UgmeeLua.Gc

/-! ## What marking does -/

/-- An object that goes into the gray list. -/
def Grays : GCObject → Prop
  | .function _ => True
  | .table _ => True
  | .thread _ => True
  | .proto _ => True
  | _ => False

def NonWhite (g : State) (l : List GCObject) : Prop := ∀ o ∈ l, g.white o = false

/-- A marked object that is not black. -/
def Waits (g : State) : GCObject → Prop
  | .string _ => True
  | .userdata _ => False
  | .upval uv => (∃ th level, g.heap.upval uv = .opened th level) ∧ NonWhite g (refs g.heap (.upval uv))
  | o => o ∈ g.gray

/-- Objects that become black as they are marked. -/
def Direct (hp : Heap) : GCObject → Prop
  | .userdata _ => True
  | .upval uv => ∃ v, hp.upval uv = .closed v
  | _ => False

/-- An object that was white and is marked. -/
def Newly (g g' : State) (o : GCObject) : Prop :=
  (g'.marked o = white2gray (g.marked o) ∧ Waits g' o) ∨
    (g'.marked o = gray2black (white2gray (g.marked o)) ∧ Direct g'.heap o ∧ NonWhite g' (refs g'.heap o))

/-- White objects with `A` are marked, and nothing else changes but the gray list. -/
structure Marked (A : GCObject → Prop) (g g' : State) : Prop where
  same : g' = { g with marked := g'.marked, gray := g'.gray }
  kept : ∀ o, g.white o = false → g'.marked o = g.marked o
  still : ∀ o, g'.white o = true → g'.marked o = g.marked o
  newly : ∀ o, g.white o = true → g'.white o = false → A o ∧ Newly g g' o
  gray : ∃ new, g'.gray = new ++ g.gray ∧ new.Nodup ∧
    ∀ o ∈ new, g.white o = true ∧ g'.white o = false ∧ Grays o

section Marked

variable {A : GCObject → Prop} {g g' g'' : State} {o : GCObject} {l : List GCObject}

theorem white_mark (f : BitVec 8 → BitVec 8) :
    (g.mark o f).white = Function.update g.white o (iswhite (f (g.marked o))) := by
  funext o'
  simp only [State.white, State.mark, Function.update_apply]
  split_ifs <;> rfl

theorem Marked.refl (A : GCObject → Prop) (g : State) : Marked A g g :=
  ⟨rfl, fun _ _ => rfl, fun _ _ => rfl, fun _ hw hn => absurd (hw.symm.trans hn) (by decide),
    [], rfl, List.nodup_nil, fun _ ho => (List.not_mem_nil ho).elim⟩

theorem Marked.heap (h : Marked A g g') : g'.heap = g.heap := by rw [h.same]

theorem Marked.nonwhite (h : Marked A g g') (ho : g.white o = false) : g'.white o = false := by
  rw [State.white, h.kept o ho]
  exact ho

theorem Marked.white (h : Marked A g g') (ho : g'.white o = true) : g.white o = true := by
  rw [State.white, ← h.still o ho]
  exact ho

theorem Marked.nonwhites (h : Marked A g g') (hl : NonWhite g l) : NonWhite g' l :=
  fun o ho => h.nonwhite (hl o ho)

theorem Marked.mem_gray (h : Marked A g g') (ho : o ∈ g.gray) : o ∈ g'.gray := by
  obtain ⟨new, hnew, -, -⟩ := h.gray
  rw [hnew]
  exact List.mem_append_right _ ho

theorem Waits.marked (hw : Waits g o) (h : Marked A g g') : Waits g' o := by
  cases o with
  | string ts => trivial
  | userdata u => exact hw
  | upval uv =>
    simp only [Waits, h.heap] at hw ⊢
    exact ⟨hw.1, h.nonwhites hw.2⟩
  | function cl => exact h.mem_gray hw
  | table t => exact h.mem_gray hw
  | thread th => exact h.mem_gray hw
  | proto p => exact h.mem_gray hw

theorem Marked.trans (h : Marked A g g') (h' : Marked A g' g'') : Marked A g g'' := by
  refine ⟨?_, fun o ho => ?_, fun o ho => ?_, fun o ho hn => ?_, ?_⟩
  · rw [h'.same, h.same]
  · rw [h'.kept o (h.nonwhite ho), h.kept o ho]
  · rw [h'.still o ho, h.still o (h'.white ho)]
  · cases hmid : g'.white o with
    | true =>
      have hnew := h'.newly o hmid hn
      rw [Newly, h.still o hmid] at hnew
      exact hnew
    | false =>
      obtain ⟨hA, hnew⟩ := h.newly o ho hmid
      refine ⟨hA, ?_⟩
      rcases hnew with ⟨hmark, hwaits⟩ | ⟨hmark, hdirect, hrefs⟩
      · exact .inl ⟨(h'.kept o hmid).trans hmark, hwaits.marked h'⟩
      · rw [← h'.heap] at hdirect hrefs
        exact .inr ⟨(h'.kept o hmid).trans hmark, hdirect, h'.nonwhites hrefs⟩
  · obtain ⟨new, hgray, hnodup, hnew⟩ := h.gray
    obtain ⟨new', hgray', hnodup', hnew'⟩ := h'.gray
    refine ⟨new' ++ new, by rw [hgray', hgray, List.append_assoc], ?_, fun o ho => ?_⟩
    · refine List.Nodup.append hnodup' hnodup fun o ho' ho => ?_
      have hwhite := (hnew' o ho').1
      rw [(hnew o ho).2.1] at hwhite
      cases hwhite
    · rcases List.mem_append.mp ho with ho | ho
      · obtain ⟨hw, hn, hkind⟩ := hnew' o ho
        exact ⟨h.white hw, hn, hkind⟩
      · obtain ⟨hw, hn, hkind⟩ := hnew o ho
        exact ⟨hw, h'.nonwhite hn, hkind⟩

theorem mark_same {f : BitVec 8 → BitVec 8} (h : f (g.marked o) = g.marked o) : g.mark o f = g := by
  rw [State.mark, h, Function.update_eq_self]

theorem white_mark_self {f : BitVec 8 → BitVec 8} : (g.mark o f).white o = iswhite (f (g.marked o)) := by
  rw [white_mark, Function.update_self]

theorem white_mark_other {f : BitVec 8 → BitVec 8} {o' : GCObject} (h : o' ≠ o) :
    (g.mark o f).white o' = g.white o' := by
  rw [white_mark, Function.update_of_ne h]

theorem marked_mark_self {f : BitVec 8 → BitVec 8} : (g.mark o f).marked o = f (g.marked o) :=
  Function.update_self ..

theorem marked_mark_other {f : BitVec 8 → BitVec 8} {o' : GCObject} (h : o' ≠ o) :
    (g.mark o f).marked o' = g.marked o' := Function.update_of_ne h _ _

/-- An object gets its mark, and others are marked after it. -/
theorem Marked.around {f : BitVec 8 → BitVec 8} {m : BitVec 8} (hw : g.white o = true) (hA : A o)
    (hf : iswhite (f (g.marked o)) = false) (h : Marked A (g.mark o f) g')
    (hm : (m = white2gray (g.marked o) ∧ Waits g' o) ∨
      (m = gray2black (white2gray (g.marked o)) ∧ Direct g'.heap o ∧ NonWhite g' (refs g'.heap o))) :
    Marked A g (g'.mark o fun _ => m) := by
  have hself : g'.white o = false := h.nonwhite (white_mark_self.trans hf)
  have hwhite : (g'.mark o fun _ => m).white = g'.white := by
    have hmw : iswhite m = false := by
      rcases hm with ⟨rfl, -⟩ | ⟨rfl, -⟩ <;> simp
    rw [white_mark, hmw, ← hself, Function.update_eq_self]
  have hmarked : ∀ o', o' ≠ o → (g.mark o f).marked o' = g.marked o' := fun o' hne => marked_mark_other hne
  have hbefore : ∀ o', o' ≠ o → (g.mark o f).white o' = g.white o' := fun o' hne => white_mark_other hne
  have hne : ∀ o', g.white o' = false → o' ≠ o := fun o' ho heq => by
    rw [heq, hw] at ho
    cases ho
  have hne' : ∀ o', g'.white o' = true → o' ≠ o := fun o' ho heq => by
    rw [heq, hself] at ho
    cases ho
  have hwaits : ∀ o', Waits g' o' → Waits (g'.mark o fun _ => m) o' := by
    intro o' ho
    cases o' with
    | string ts => trivial
    | userdata u => exact ho
    | upval uv => exact ⟨ho.1, fun c hc => (congrFun hwhite c).trans (ho.2 c hc)⟩
    | function cl => exact ho
    | table t => exact ho
    | thread th => exact ho
    | proto p => exact ho
  refine ⟨?_, fun o' ho => ?_, fun o' ho => ?_, fun o' ho hn => ?_, ?_⟩
  · rw [h.same]
    rfl
  · have hn := hne o' ho
    rw [marked_mark_other hn, h.kept o' ((hbefore o' hn).trans ho), hmarked o' hn]
  · rw [hwhite] at ho
    have hn := hne' o' ho
    rw [marked_mark_other hn, h.still o' ho, hmarked o' hn]
  · rw [hwhite] at hn
    rcases eq_or_ne o' o with rfl | hdiff
    · refine ⟨hA, ?_⟩
      simp only [Newly, State.mark, Function.update_self]
      rcases hm with ⟨hm, hwait⟩ | ⟨hm, hdirect, hrefs⟩
      · exact .inl ⟨hm, hwaits _ hwait⟩
      · exact .inr ⟨hm, hdirect, fun c hc => (congrFun hwhite c).trans (hrefs c hc)⟩
    · obtain ⟨hA', hnew⟩ := h.newly o' ((hbefore o' hdiff).trans ho) hn
      rw [Newly, hmarked o' hdiff] at hnew
      refine ⟨hA', ?_⟩
      rw [Newly, marked_mark_other hdiff]
      rcases hnew with ⟨hm', hwait⟩ | ⟨hm', hdirect, hrefs⟩
      · exact .inl ⟨hm', hwaits _ hwait⟩
      · exact .inr ⟨hm', hdirect, fun c hc => (congrFun hwhite c).trans (hrefs c hc)⟩
  · obtain ⟨new, hgray, hnodup, hnew⟩ := h.gray
    refine ⟨new, hgray, hnodup, fun o' ho => ?_⟩
    obtain ⟨hw', hn', hkind⟩ := hnew o' ho
    have hdiff : o' ≠ o := fun heq => by
      rw [heq, white_mark_self, hf] at hw'
      cases hw'
    exact ⟨(hbefore o' hdiff).symm.trans hw', (congrFun hwhite o').trans hn', hkind⟩

theorem marked_string (ts : Nat) (hA : A (.string ts)) : Marked A g (stringmark ts g) := by
  cases hw : g.white (.string ts) with
  | false =>
    rw [stringmark, mark_same (white2gray_of_not_white hw)]
    exact Marked.refl A g
  | true =>
    have h := Marked.around (m := white2gray (g.marked (.string ts))) hw hA iswhite_white2gray
      (Marked.refl A (g.mark (.string ts) white2gray)) (.inl ⟨rfl, trivial⟩)
    simpa only [State.mark, Function.update_idem, stringmark] using h

theorem nonwhite_string (ts : Nat) : (stringmark ts g).white (.string ts) = false :=
  white_mark_self.trans iswhite_white2gray

theorem marked_gray (hkind : Grays o) (hw : g.white o = true) (hA : A o) : Marked A g (markgray o g) := by
  have hself : (markgray o g).white o = false := white_mark_self.trans iswhite_white2gray
  have hwaits : Waits (markgray o g) o := by
    cases o with
    | function cl => exact List.mem_cons_self
    | table t => exact List.mem_cons_self
    | thread th => exact List.mem_cons_self
    | proto p => exact List.mem_cons_self
    | string ts => exact hkind.elim
    | userdata u => exact hkind.elim
    | upval uv => exact hkind.elim
  have hother : ∀ o', o' ≠ o → (markgray o g).marked o' = g.marked o' := fun o' hne => marked_mark_other hne
  refine ⟨rfl, fun o' ho => ?_, fun o' ho => ?_, fun o' ho hn => ?_, [o], rfl, List.nodup_singleton o,
    fun o' ho => ?_⟩
  · refine hother o' fun heq => ?_
    rw [heq, hw] at ho
    cases ho
  · refine hother o' fun heq => ?_
    rw [heq, hself] at ho
    cases ho
  · have heq : o' = o := by
      by_contra hne
      rw [State.white, hother o' hne] at hn
      rw [State.white, hn] at ho
      cases ho
    subst heq
    exact ⟨hA, .inl ⟨Function.update_self .., hwaits⟩⟩
  · rw [List.mem_singleton.mp ho]
    exact ⟨hw, hself, hkind⟩

theorem nonwhite_gray (o : GCObject) : (markgray o g).white o = false :=
  white_mark_self.trans iswhite_white2gray

/-- White objects with `A` are marked, these objects among them. -/
def MarksRefs (A : GCObject → Prop) (g g' : State) (l : List GCObject) : Prop := Marked A g g' ∧ NonWhite g' l

theorem marks_table {t : Nat} (hA : A (.table t)) : MarksRefs A g (marktable t g) [.table t] := by
  rw [marktable]
  split_ifs with hw
  · exact ⟨marked_gray trivial hw hA, fun o ho => by rw [List.mem_singleton.mp ho]; exact nonwhite_gray _⟩
  · refine ⟨Marked.refl A g, fun o ho => ?_⟩
    rw [List.mem_singleton.mp ho]
    exact eq_false_of_ne_true hw

theorem marks_metatable {mt : Option Nat} (hA : ∀ t, mt = some t → A (.table t)) :
    MarksRefs A g (markmetatable mt g) (mt.toList.map GCObject.table) := by
  cases mt with
  | none => exact ⟨Marked.refl A g, fun o ho => (List.not_mem_nil ho).elim⟩
  | some t => exact marks_table (hA t rfl)

theorem MarksRefs.append {l l' : List GCObject} (h : MarksRefs A g g' l) (h' : MarksRefs A g' g'' l') :
    MarksRefs A g g'' (l ++ l') := by
  refine ⟨h.1.trans h'.1, fun o ho => ?_⟩
  rcases List.mem_append.mp ho with ho | ho
  · exact h'.1.nonwhite (h.2 o ho)
  · exact h'.2 o ho

/-- Objects with `A` refer to objects with `A`. -/
def Closed (A : GCObject → Prop) (hp : Heap) : Prop := ∀ o, A o → ∀ c ∈ refs hp o, A c

theorem Marked.closed {B : GCObject → Prop} (h : Marked A g g') (hclosed : Closed B g.heap) :
    Closed B g'.heap := by
  rw [h.heap]
  exact hclosed

theorem mark_eq_self {m : BitVec 8} (h : g.marked o = m) : (g.mark o fun _ => m) = g := by
  rw [State.mark, ← h, Function.update_eq_self]

theorem marked_udata {u : Nat} (hclosed : Closed A g.heap) (hw : g.white (.userdata u) = true)
    (hA : A (.userdata u)) : MarksRefs A g (markudata u g) [.userdata u] := by
  have hrefs := hclosed _ hA
  let g1 := g.mark (.userdata u) fun m => gray2black (white2gray m)
  have hone : iswhite (gray2black (white2gray (g.marked (.userdata u)))) = false := by simp
  have hmt : MarksRefs A g1 (markmetatable (g.heap.udata u).metatable g1) _ :=
    marks_metatable fun t ht => hrefs _ (List.mem_append_left _ (by rw [ht]; exact List.mem_singleton_self _))
  have henv : MarksRefs A _ (markudata u g) [.table (g.heap.udata u).env] :=
    marks_table (hrefs _ (List.mem_append_right _ (List.mem_singleton_self _)))
  have hboth := hmt.append henv
  have hself : g1.white (.userdata u) = false := white_mark_self.trans hone
  have hm : (markudata u g).marked (.userdata u) = gray2black (white2gray (g.marked (.userdata u))) :=
    (hboth.1.kept _ hself).trans (Function.update_self ..)
  have hall := Marked.around hw hA hone hboth.1 (.inr ⟨rfl, trivial, by rw [hboth.1.heap]; exact hboth.2⟩)
  rw [mark_eq_self hm] at hall
  refine ⟨hall, fun o ho => ?_⟩
  rw [List.mem_singleton.mp ho]
  exact hboth.1.nonwhite hself

theorem marked_plain (hclosed : Closed A g.heap) (hkind : ∀ uv, o ≠ .upval uv) (hw : g.white o = true)
    (hA : A o) : MarksRefs A g (markplain g o) [o] := by
  have hgray : Grays o → MarksRefs A g (markgray o g) [o] := fun h =>
    ⟨marked_gray h hw hA, fun c hc => by rw [List.mem_singleton.mp hc]; exact nonwhite_gray o⟩
  cases o with
  | string ts =>
    exact ⟨marked_string ts hA, fun c hc => by rw [List.mem_singleton.mp hc]; exact nonwhite_string ts⟩
  | userdata u => exact marked_udata hclosed hw hA
  | upval uv => exact absurd rfl (hkind uv)
  | function cl => exact hgray trivial
  | table t => exact hgray trivial
  | thread th => exact hgray trivial
  | proto p => exact hgray trivial

theorem gcvalue_ne_upval {v : TValue} (h : v.gcvalue = some o) (uv : Nat) : o ≠ .upval uv := by
  cases v <;> cases h <;> nofun

theorem marks_value {v : TValue} (hclosed : Closed A g.heap) (hA : ∀ o, v.gcvalue = some o → A o) :
    MarksRefs A g (markvalue v g) (gcvalues [v]) := by
  cases hv : v.gcvalue with
  | none =>
    have hnil : gcvalues [v] = [] := by rw [gcvalues, List.filterMap_cons_none hv, List.filterMap_nil]
    rw [hnil, markvalue, hv]
    exact ⟨Marked.refl A g, fun o ho => (List.not_mem_nil ho).elim⟩
  | some o =>
    have hone : gcvalues [v] = [o] := by rw [gcvalues, List.filterMap_cons_some hv, List.filterMap_nil]
    rw [hone, markvalue, hv]
    simp only
    split_ifs with hw
    · exact marked_plain hclosed (gcvalue_ne_upval hv) hw (hA o hv)
    · exact ⟨Marked.refl A g, fun c hc => by rw [List.mem_singleton.mp hc]; exact eq_false_of_ne_true hw⟩

theorem markplain_eq (hkind : ∀ uv, o ≠ .upval uv) : reallymarkobject o g = markplain g o := by
  cases o with
  | upval uv => exact absurd rfl (hkind uv)
  | string ts => rfl
  | userdata u => rfl
  | function cl => rfl
  | table t => rfl
  | thread th => rfl
  | proto p => rfl

/-- `markvalue` in the words of the source. -/
theorem markvalue_eq {v : TValue} (h : v.gcvalue = some o) : markvalue v g = markobject o g := by
  rw [markvalue, h, markobject, markplain_eq (gcvalue_ne_upval h)]

theorem marked_upval {uv : Nat} (hclosed : Closed A g.heap) (hw : g.white (.upval uv) = true)
    (hA : A (.upval uv)) : MarksRefs A g (reallymarkobject (.upval uv) g) [.upval uv] := by
  let g1 := g.mark (.upval uv) white2gray
  have hself : g1.white (.upval uv) = false := white_mark_self.trans iswhite_white2gray
  have hvalue : MarksRefs A g1 (markvalue (g.heap.upvalue uv) g1) (gcvalues [g.heap.upvalue uv]) := by
    refine marks_value hclosed fun o ho => hclosed _ hA o ?_
    exact mem_gcvalues.mpr ⟨_, List.mem_singleton_self _, ho⟩
  have hm : (markvalue (g.heap.upvalue uv) g1).marked (.upval uv) = white2gray (g.marked (.upval uv)) :=
    (hvalue.1.kept _ hself).trans (Function.update_self ..)
  have hheap := hvalue.1.heap
  have hupval : (markvalue (g.heap.upvalue uv) (g.mark (.upval uv) white2gray)).heap.upval uv =
      g.heap.upval uv := congrArg (·.upval uv) hheap
  simp only [reallymarkobject, hupval]
  cases huv : g.heap.upval uv with
  | opened th level =>
    have hwaits : Waits (markvalue (g.heap.upvalue uv) g1) (.upval uv) := by
      rw [Waits, hheap]
      exact ⟨⟨th, level, huv⟩, hvalue.2⟩
    have hall := Marked.around hw hA iswhite_white2gray hvalue.1 (.inl ⟨rfl, hwaits⟩)
    rw [mark_eq_self hm] at hall
    refine ⟨hall, fun o ho => ?_⟩
    rw [List.mem_singleton.mp ho]
    exact hvalue.1.nonwhite hself
  | closed v =>
    have hall := Marked.around hw hA iswhite_white2gray hvalue.1
      (.inr ⟨rfl, by rw [hheap]; exact ⟨v, huv⟩, by rw [hheap]; exact hvalue.2⟩)
    have hsame : ((markvalue (g.heap.upvalue uv) g1).mark (.upval uv) fun _ =>
        gray2black (white2gray (g.marked (.upval uv)))) =
        (markvalue (g.heap.upvalue uv) g1).mark (.upval uv) gray2black := by
      rw [State.mark, State.mark, hm]
    rw [hsame] at hall
    refine ⟨hall, fun o ho => ?_⟩
    rw [List.mem_singleton.mp ho, white_mark_self, iswhite_gray2black]
    exact hvalue.1.nonwhite hself

theorem marks_object (hclosed : Closed A g.heap) (hA : A o) : MarksRefs A g (markobject o g) [o] := by
  rw [markobject]
  split_ifs with hw
  · by_cases hkind : ∀ uv, o ≠ .upval uv
    · rw [markplain_eq hkind]
      exact marked_plain hclosed hkind hw hA
    · obtain ⟨uv, rfl⟩ := not_forall_not.mp hkind
      exact marked_upval hclosed hw hA
  · exact ⟨Marked.refl A g, fun c hc => by rw [List.mem_singleton.mp hc]; exact eq_false_of_ne_true hw⟩

/-- A loop that marks marks what each of its steps marks. -/
theorem marks_all {α : Type} {f : α → State → State} {r : α → List GCObject} {l : List α}
    (hf : ∀ x ∈ l, ∀ g1, g1.heap = g.heap → MarksRefs A g1 (f x g1) (r x)) :
    MarksRefs A g (marksAll f l g) (l.flatMap r) := by
  induction l generalizing g with
  | nil => exact ⟨Marked.refl A g, fun o ho => (List.not_mem_nil ho).elim⟩
  | cons x l ih =>
    have hx := hf x List.mem_cons_self g rfl
    have hrest : MarksRefs A (f x g) (marksAll f l (f x g)) (l.flatMap r) :=
      ih fun y hy g1 h1 => hf y (List.mem_cons_of_mem _ hy) g1 (h1.trans hx.1.heap)
    exact hx.append hrest

end Marked

end UgmeeLua.Gc

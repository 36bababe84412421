import UgmeeLua.Lgc.Marking

namespace UgmeeLua.Gc

/-! ## The invariant of the mark phase -/

/-- The lists of gray objects. -/
def State.grays (g : State) : List GCObject := g.gray ++ (g.grayagain ++ g.weak.map .table)

/-- Objects that are never black: threads and open upvalues. -/
def Exempt (hp : Heap) : GCObject → Prop
  | .thread _ => True
  | .upval uv => ∃ th level, hp.upval uv = .opened th level
  | _ => False

/-- A marked object is black, or it is gray and where its references will be found. -/
def Settled (g : State) : GCObject → Prop
  | .string _ => True
  | .userdata u => g.black (.userdata u) = true ∨ u ∈ g.tmudata
  | .upval uv => g.black (.upval uv) = true ∨ ∃ th level, g.heap.upval uv = .opened th level
  | o => g.black o = true ∨ o ∈ g.grays

def keyweak (g : State) (h : Nat) : Bool := testbit (g.marked (.table h)) KEYWEAKBIT

def valueweak (g : State) (h : Nat) : Bool := testbit (g.marked (.table h)) VALUEWEAKBIT

/-- The sides of a weak table that are not weak are marked. -/
def WeakDone (g : State) (h : Nat) : Prop :=
  NonWhite g ((g.heap.table h).refs (keyweak g h) (valueweak g h))

def Pending (g : State) (o : GCObject) : Prop := ∃ u ∈ g.tmudata, o = .userdata u

/-- The invariant of the mark phase. From 1 on open upvalues are marked anew, from 2 on weak tables, from 3
on the objects in `grayagain`, and from 4 on userdata that waits for its finalizer. The objects with `X`
are being traversed. -/
structure Phase (n : Nat) (X : GCObject → Prop) (g : State) : Prop where
  closed : Closed (· ∈ g.objects) g.heap
  black : ∀ o ∈ g.objects, g.black o = true → ¬ Pending g o → ¬ X o → NonWhite g (refs g.heap o)
  settled : ∀ o ∈ g.objects, g.white o = false → Settled g o
  notblack : ∀ o ∈ g.objects, g.white o = true → g.black o = false
  exempt : ∀ o ∈ g.objects, g.black o = true → ¬ Exempt g.heap o
  listed : ∀ o ∈ g.grays, o ∈ g.objects ∧ g.white o = false ∧ Grays o ∧ (¬ X o → g.black o = false)
  nodup : g.grays.Nodup
  remarked : 1 ≤ n → ∀ uv, .upval uv ∈ g.objects → Exempt g.heap (.upval uv) → g.white (.upval uv) = false →
    NonWhite g (refs g.heap (.upval uv))
  weak : 2 ≤ n → ∀ h ∈ g.weak, ¬ X (.table h) → WeakDone g h
  again : 3 ≤ n → ∀ o ∈ g.grayagain, ¬ X o → NonWhite g (refs g.heap o)
  tmudata : 4 ≤ n → ∀ u ∈ g.tmudata, g.white (.userdata u) = false ∧ NonWhite g (refs g.heap (.userdata u))

/-- Nothing is being traversed. -/
def Nowhere (_ : GCObject) : Prop := False

section Phase

variable {n : Nat} {X : GCObject → Prop} {g g' : State} {o : GCObject}

theorem Marked.objects {A : GCObject → Prop} (h : Marked A g g') : g'.objects = g.objects := by
  rw [h.same]
  rfl

theorem Marked.grays {A : GCObject → Prop} (h : Marked A g g') : ∃ new, g'.grays = new ++ g.grays ∧
    new.Nodup ∧ ∀ o ∈ new, g.white o = true ∧ g'.white o = false ∧ Grays o := by
  obtain ⟨new, hgray, hnew⟩ := h.gray
  refine ⟨new, ?_, hnew⟩
  have hothers : g'.grays = g'.gray ++ (g.grayagain ++ g.weak.map .table) := by
    rw [h.same]
    rfl
  rw [hothers, hgray, List.append_assoc]
  rfl

theorem Marked.mem_grays {A : GCObject → Prop} (h : Marked A g g') (ho : o ∈ g.grays) : o ∈ g'.grays := by
  obtain ⟨new, hnew, -⟩ := h.grays
  rw [hnew]
  exact List.mem_append_right _ ho

theorem Marked.notMem_grays {A : GCObject → Prop} (h : Marked A g g') (hn : g.white o = false)
    (ho : o ∉ g.grays) : o ∉ g'.grays := by
  obtain ⟨new, hnew, -, hwhite⟩ := h.grays
  rw [hnew, List.mem_append]
  rintro (hin | hin)
  · rw [(hwhite o hin).1] at hn
    cases hn
  · exact ho hin

/-- A marked object stays settled where it stays black, pending, open or gray, or becomes black. -/
theorem Settled.imp (hs : Settled g o) (hblack : g.black o = true → g'.black o = true)
    (htm : ∀ u ∈ g.tmudata, o = .userdata u → g'.black o = true ∨ u ∈ g'.tmudata)
    (hopen : ∀ uv, o = .upval uv → Exempt g.heap o → g'.black o = true ∨ Exempt g'.heap o)
    (hgray : o ∈ g.grays → g'.black o = true ∨ o ∈ g'.grays) : Settled g' o := by
  cases o with
  | string ts => trivial
  | userdata u => exact hs.elim (fun hb => .inl (hblack hb)) fun hu => htm u hu rfl
  | upval uv => exact hs.elim (fun hb => .inl (hblack hb)) fun hu => hopen uv rfl hu
  | function cl => exact hs.elim (fun hb => .inl (hblack hb)) hgray
  | table t => exact hs.elim (fun hb => .inl (hblack hb)) hgray
  | thread th => exact hs.elim (fun hb => .inl (hblack hb)) hgray
  | proto p => exact hs.elim (fun hb => .inl (hblack hb)) hgray

theorem Settled.marked {A : GCObject → Prop} (hs : Settled g o) (hn : g.white o = false)
    (h : Marked A g g') : Settled g' o := by
  have hblack : g'.black o = g.black o := congrArg isblack (h.kept o hn)
  have htm : g'.tmudata = g.tmudata := by rw [h.same]
  refine hs.imp hblack.trans (fun u hu _ => .inr (htm ▸ hu)) (fun uv _ hex => .inr ?_) fun ho =>
    .inr (h.mem_grays ho)
  rw [h.heap]
  exact hex

theorem Newly.settled (hnew : Newly g g' o) : Settled g' o := by
  have hgray : o ∈ g'.gray → o ∈ g'.grays := fun h => List.mem_append_left _ h
  have hblack : g'.marked o = gray2black (white2gray (g.marked o)) → g'.black o = true := fun h => by
    rw [State.black, h, isblack_gray2black]
  cases o with
  | string ts => trivial
  | userdata u => exact .inl (hnew.elim (fun h => h.2.elim) fun h => hblack h.1)
  | upval uv =>
    rcases hnew with ⟨-, hopen, -⟩ | ⟨hm, -, -⟩
    · exact .inr hopen
    · exact .inl (hblack hm)
  | function cl => exact .inr (hgray (hnew.elim (fun h => h.2) fun h => h.2.1.elim))
  | table t => exact .inr (hgray (hnew.elim (fun h => h.2) fun h => h.2.1.elim))
  | thread th => exact .inr (hgray (hnew.elim (fun h => h.2) fun h => h.2.1.elim))
  | proto p => exact .inr (hgray (hnew.elim (fun h => h.2) fun h => h.2.1.elim))

theorem Direct.not_exempt {hp : Heap} (h : Direct hp o) : ¬ Exempt hp o := by
  cases o with
  | upval uv =>
    obtain ⟨v, hv⟩ := h
    rintro ⟨th, level, hopen⟩
    rw [hv] at hopen
    cases hopen
  | userdata u => exact id
  | string ts => exact h.elim
  | function cl => exact h.elim
  | table t => exact h.elim
  | thread th => exact h.elim
  | proto p => exact h.elim

theorem Direct.not_grays {hp : Heap} (h : Direct hp o) : ¬ Grays o := by
  cases o <;> first | exact h.elim | exact id

/-- Marking keeps the invariant. -/
theorem Phase.marked (h : Phase n X g) (hm : Marked (· ∈ g.objects) g g') : Phase n X g' := by
  have hheap := hm.heap
  have hobjects := hm.objects
  have htm : g'.tmudata = g.tmudata := by rw [hm.same]
  have hweak : g'.weak = g.weak := by rw [hm.same]
  have hagain : g'.grayagain = g.grayagain := by rw [hm.same]
  have hblack : ∀ o, g.white o = false → g'.black o = g.black o := fun o hn =>
    congrArg isblack (hm.kept o hn)
  -- A white object that is black now became black as it was marked.
  have hdirect : ∀ o ∈ g.objects, g.white o = true → g'.black o = true →
      Direct g'.heap o ∧ NonWhite g' (refs g'.heap o) := by
    intro o ho hw hb
    have hwas := h.notblack o ho hw
    cases hw' : g'.white o with
    | true =>
      rw [State.black, hm.still o hw'] at hb
      rw [State.black, hb] at hwas
      cases hwas
    | false =>
      rcases (hm.newly o hw hw').2 with ⟨hmark, -⟩ | ⟨-, hrest⟩
      · rw [State.black, hmark, isblack_white2gray] at hb
        rw [State.black, hb] at hwas
        cases hwas
      · exact hrest
  obtain ⟨new, hgrays, hnodup, hnew⟩ := hm.grays
  refine ⟨by rw [hheap, hobjects]; exact h.closed, fun o ho hb hpend hX => ?_, fun o ho hn => ?_,
    fun o ho hw => ?_, fun o ho hb => ?_, fun o ho => ?_, ?_, fun hn uv ho hopen hnot => ?_,
    fun hn t ht hX => ?_, fun hn o ho hX => ?_, fun hn u hu => ?_⟩
  · rw [hobjects] at ho
    cases hw : g.white o with
    | true => exact (hdirect o ho hw hb).2
    | false =>
      rw [hblack o hw] at hb
      rw [Pending, htm] at hpend
      rw [hheap]
      exact hm.nonwhites (h.black o ho hb hpend hX)
  · rw [hobjects] at ho
    cases hw : g.white o with
    | true => exact (hm.newly o hw hn).2.settled
    | false => exact (h.settled o ho hw).marked hw hm
  · rw [hobjects] at ho
    rw [State.black, hm.still o hw]
    exact h.notblack o ho (hm.white hw)
  · rw [hobjects] at ho
    cases hw : g.white o with
    | true => exact (hdirect o ho hw hb).1.not_exempt
    | false =>
      rw [hblack o hw] at hb
      rw [hheap]
      exact h.exempt o ho hb
  · rw [hgrays, List.mem_append] at ho
    rw [hobjects]
    rcases ho with ho | ho
    · obtain ⟨hw, hn, hkind⟩ := hnew o ho
      have hin := (hm.newly o hw hn).1
      refine ⟨hin, hn, hkind, fun _ => ?_⟩
      by_contra hb
      exact (hdirect o hin hw (eq_true_of_ne_false hb)).1.not_grays hkind
    · obtain ⟨hin, hn, hkind, hb⟩ := h.listed o ho
      exact ⟨hin, hm.nonwhite hn, hkind, fun hX => (hblack o hn).trans (hb hX)⟩
  · rw [hgrays]
    refine List.Nodup.append hnodup h.nodup fun o ho ho' => ?_
    have hn := (h.listed o ho').2.1
    rw [(hnew o ho).1] at hn
    cases hn
  · rw [hobjects] at ho
    rw [hheap] at hopen
    cases hw : g.white (.upval uv) with
    | false =>
      rw [hheap]
      exact hm.nonwhites (h.remarked hn uv ho hopen hw)
    | true =>
      rcases (hm.newly _ hw hnot).2 with ⟨-, hwaits⟩ | ⟨-, -, hrefs⟩
      · exact hwaits.2
      · exact hrefs
  · rw [hweak] at ht
    have hmark : g'.marked (.table t) = g.marked (.table t) := by
      refine hm.kept _ (h.listed _ ?_).2.1
      exact List.mem_append_right _ (List.mem_append_right _ (List.mem_map_of_mem ht))
    have hdone := h.weak hn t ht hX
    simp only [WeakDone, keyweak, valueweak, hmark, hheap] at hdone ⊢
    exact hm.nonwhites hdone
  · rw [hagain] at ho
    rw [hheap]
    exact hm.nonwhites (h.again hn o ho hX)
  · rw [htm] at hu
    obtain ⟨hwhite, hdone⟩ := h.tmudata hn u hu
    rw [hheap]
    exact ⟨hm.nonwhite hwhite, hm.nonwhites hdone⟩

/-- Only what is in the objects matters, and which are white, black and in the lists. More userdata may wait
for its finalizer, before that is marked. -/
theorem Phase.congr (h : Phase n X g) (hn : n ≤ 3) (hheap : g'.heap = g.heap) (hwhite : g'.white = g.white)
    (hblack : g'.black = g.black) (hobjects : ∀ o, o ∈ g'.objects ↔ o ∈ g.objects) (hgray : g'.gray = g.gray)
    (hagain : g'.grayagain = g.grayagain) (hweak : g'.weak = g.weak) (htm : ∀ u ∈ g.tmudata, u ∈ g'.tmudata)
    (hbits : ∀ t ∈ g.weak, ¬ X (.table t) → keyweak g' t = keyweak g t ∧ valueweak g' t = valueweak g t) :
    Phase n X g' := by
  have hgrays : g'.grays = g.grays := by rw [State.grays, hgray, hagain, hweak, State.grays]
  have hnon : NonWhite g' = NonWhite g := by
    funext l
    rw [NonWhite, hwhite, NonWhite]
  refine ⟨?_, fun o ho hb hp hX => ?_, fun o ho hw => ?_, ?_, ?_, ?_, ?_, ?_, fun hn t ht hX => ?_, ?_,
    fun h4 => absurd (h4.trans hn) (by decide)⟩
  · simp only [Closed, hheap, hobjects]
    exact h.closed
  · rw [hobjects] at ho
    rw [hblack] at hb
    rw [hheap, hnon]
    exact h.black o ho hb (fun ⟨u, hu, heq⟩ => hp ⟨u, htm u hu, heq⟩) hX
  · rw [hobjects] at ho
    rw [hwhite] at hw
    refine (h.settled o ho hw).imp (fun hb => ?_) (fun u hu _ => .inr (htm u hu)) (fun uv _ hex => .inr ?_)
      fun ho => .inr ?_
    · rw [hblack]
      exact hb
    · rw [hheap]
      exact hex
    · rw [hgrays]
      exact ho
  · simp only [hobjects, hwhite, hblack]
    exact h.notblack
  · simp only [hobjects, hheap, hblack]
    exact h.exempt
  · simp only [hobjects, hgrays, hwhite, hblack]
    exact h.listed
  · rw [hgrays]
    exact h.nodup
  · simp only [hobjects, hheap, hwhite, hnon]
    exact h.remarked
  · rw [hweak] at ht
    obtain ⟨hkey, hvalue⟩ := hbits t ht hX
    rw [WeakDone, hkey, hvalue, hheap, hnon]
    exact h.weak hn t ht hX
  · rw [hagain, hheap, hnon]
    exact h.again

/-- References are taken away, and no upvalue is opened or closed. -/
structure Trims (hp hp' : Heap) : Prop where
  refs : ∀ o, ∀ c ∈ refs hp' o, c ∈ refs hp o
  table : ∀ t weakkey weakvalue, ∀ c ∈ (hp'.table t).refs weakkey weakvalue,
    c ∈ (hp.table t).refs weakkey weakvalue
  upval : hp'.upval = hp.upval
  openupval : ∀ th, (hp'.thread th).openupval = (hp.thread th).openupval

theorem Trims.rfl (hp : Heap) : Trims hp hp :=
  ⟨fun _ _ h => h, fun _ _ _ _ h => h, Eq.refl _, fun _ => Eq.refl _⟩

theorem Trims.trans {hp hp' hp'' : Heap} (h : Trims hp hp') (h' : Trims hp' hp'') : Trims hp hp'' :=
  ⟨fun o c hc => h.refs o c (h'.refs o c hc), fun t a b c hc => h.table t a b c (h'.table t a b c hc),
    h'.upval.trans h.upval, fun th => (h'.openupval th).trans (h.openupval th)⟩

theorem Phase.trim {hp : Heap} (h : Phase n X g) (ht : Trims g.heap hp) : Phase n X (g.setHeap hp) := by
  have hexempt : ∀ o, Exempt hp o ↔ Exempt g.heap o := fun o => by
    cases o <;> simp only [Exempt, ht.upval]
  refine ⟨fun o ho c hc => h.closed o ho c (ht.refs o c hc), fun o ho hb hp hX c hc => ?_,
    fun o ho hn => ?_, h.notblack, fun o ho hb hex => h.exempt o ho hb ((hexempt o).mp hex), h.listed,
    h.nodup, fun hn uv ho hopen hnot c hc => ?_, fun hn t ht' hX c hc => ?_, fun hn o ho hX c hc => ?_,
    fun hn u hu => ?_⟩
  · exact h.black o ho hb hp hX c (ht.refs o c hc)
  · exact (h.settled o ho hn).imp id (fun _ hu _ => .inr hu) (fun _ _ hex => .inr ((hexempt o).mpr hex)) .inr
  · exact h.remarked hn uv ho ((hexempt _).mp hopen) hnot c (ht.refs _ c hc)
  · exact h.weak hn t ht' hX c (ht.table t _ _ c hc)
  · exact h.again hn o ho hX c (ht.refs o c hc)
  · obtain ⟨hwhite, hdone⟩ := h.tmudata hn u hu
    exact ⟨hwhite, fun c hc => hdone c (ht.refs _ c hc)⟩

/-- What was traversed is done. -/
theorem Phase.finish {o : GCObject} (h : Phase n (· = o) g)
    (hblack : g.black o = true → NonWhite g (refs g.heap o)) (hlisted : o ∈ g.grays → g.black o = false)
    (hweak : ∀ t ∈ g.weak, o = .table t → WeakDone g t)
    (hagain : o ∈ g.grayagain → NonWhite g (refs g.heap o)) : Phase n Nowhere g := by
  refine { h with
    black := fun o' ho hb hp _ => ?_, listed := fun o' ho => ?_, weak := fun hn t ht _ => ?_,
    again := fun hn o' ho _ => ?_ }
  · by_cases heq : o' = o
    · subst heq
      exact hblack hb
    · exact h.black o' ho hb hp heq
  · obtain ⟨hin, hn, hkind, hb⟩ := h.listed o' ho
    refine ⟨hin, hn, hkind, fun _ => ?_⟩
    by_cases heq : o' = o
    · subst heq
      exact hlisted ho
    · exact hb heq
  · by_cases heq : GCObject.table t = o
    · exact hweak t ht heq.symm
    · exact h.weak hn t ht heq
  · by_cases heq : o' = o
    · subst heq
      exact hagain ho
    · exact h.again hn o' ho heq

end Phase

end UgmeeLua.Gc

import UgmeeLua.Lgc.Runs

namespace UgmeeLua.Gc

/-! ## What keeps the queue of finalizers -/

section Keeps

variable {g g' g'' : State} {o : GCObject} {f : BitVec 8 → BitVec 8}

/-- Userdata that has been found stays so, none is made, and the queue of finalizers is as it was. -/
structure Keeps (g g' : State) : Prop where
  finalized : ∀ u, isfinalized (g.marked (.userdata u)) = true → isfinalized (g'.marked (.userdata u)) = true
  udata : g'.udata.Sublist g.udata
  tmudata : g'.tmudata = g.tmudata

theorem Keeps.of_eq (hm : g'.marked = g.marked) (hu : g'.udata = g.udata) (ht : g'.tmudata = g.tmudata) : Keeps g g' :=
  ⟨fun _ h => hm ▸ h, hu ▸ List.Sublist.refl _, ht⟩

theorem Keeps.refl (g : State) : Keeps g g := .of_eq rfl rfl rfl

theorem Keeps.trans (h : Keeps g g') (h' : Keeps g' g'') : Keeps g g'' :=
  ⟨fun u hu => h'.finalized u (h.finalized u hu), h'.udata.trans h.udata, h'.tmudata.trans h.tmudata⟩

theorem keeps_mark (hf : ∀ m, isfinalized m = true → isfinalized (f m) = true) : Keeps g (g.mark o f) := by
  refine ⟨fun u hu => ?_, List.Sublist.refl _, rfl⟩
  by_cases heq : GCObject.userdata u = o
  · rw [← heq, marked_mark_self]
    exact hf _ hu
  · rwa [marked_mark_other heq]

theorem keeps_other (hkind : ∀ u, o ≠ .userdata u) : Keeps g (g.mark o f) :=
  ⟨fun u hu => by rwa [marked_mark_other (hkind u).symm], List.Sublist.refl _, rfl⟩

theorem keeps_white2gray : Keeps g (g.mark o white2gray) := keeps_mark fun m h => by rwa [isfinalized_white2gray]

theorem keeps_gray2black : Keeps g (g.mark o gray2black) := keeps_mark fun m h => by rwa [isfinalized_gray2black]

theorem keeps_whiten (o : GCObject) : Keeps g (g.whiten o) := keeps_mark fun m h => by rwa [isfinalized_makewhite]

theorem keeps_black2gray {t : Nat} : Keeps g (g.mark (.table t) black2gray) := keeps_other (by simp)

theorem keeps_all {α : Type} {F : α → State → State} {l : List α} (hF : ∀ x ∈ l, ∀ g, Keeps g (F x g)) (g : State) :
    Keeps g (marksAll F l g) := by
  induction l generalizing g with
  | nil => exact Keeps.refl g
  | cons x l ih => exact (hF x List.mem_cons_self g).trans (ih (fun y hy => hF y (List.mem_cons_of_mem _ hy)) (F x g))

/-! ### Marking -/

theorem keeps_markgray : Keeps g (markgray o g) := keeps_white2gray.trans (.of_eq rfl rfl rfl)

theorem keeps_marktable {t : Nat} : Keeps g (marktable t g) := by
  rw [marktable]
  split_ifs
  · exact keeps_markgray
  · exact Keeps.refl g

theorem keeps_markmetatable {mt : Option Nat} : Keeps g (markmetatable mt g) := by
  cases mt with
  | none => exact Keeps.refl g
  | some t => exact keeps_marktable

theorem keeps_markudata {u : Nat} : Keeps g (markudata u g) := by
  have hself : Keeps g (g.mark (.userdata u) fun m => gray2black (white2gray m)) := keeps_mark fun m h => by
    rwa [isfinalized_gray2black, isfinalized_white2gray]
  exact hself.trans (keeps_markmetatable.trans keeps_marktable)

theorem keeps_markplain : Keeps g (markplain g o) := by
  cases o with
  | string ts => exact keeps_white2gray
  | userdata u => exact keeps_markudata
  | upval uv => exact keeps_markgray
  | function cl => exact keeps_markgray
  | table t => exact keeps_markgray
  | thread th => exact keeps_markgray
  | proto p => exact keeps_markgray

theorem keeps_markvalue {v : TValue} : Keeps g (markvalue v g) := by
  rw [markvalue]
  cases v.gcvalue with
  | none => exact Keeps.refl g
  | some o =>
    simp only
    split_ifs
    · exact keeps_markplain
    · exact Keeps.refl g

theorem keeps_reallymarkobject : Keeps g (reallymarkobject o g) := by
  by_cases hkind : ∀ uv, o ≠ .upval uv
  · rw [markplain_eq hkind]
    exact keeps_markplain
  · obtain ⟨uv, rfl⟩ := not_forall_not.mp hkind
    have hvalue : Keeps g (markvalue (g.heap.upvalue uv) (g.mark (.upval uv) white2gray)) :=
      keeps_white2gray.trans keeps_markvalue
    simp only [reallymarkobject]
    generalize markvalue (g.heap.upvalue uv) (g.mark (.upval uv) white2gray) = g1 at hvalue ⊢
    cases g1.heap.upval uv with
    | opened th level => exact hvalue
    | closed v => exact hvalue.trans keeps_gray2black

theorem keeps_markobject : Keeps g (markobject o g) := by
  rw [markobject]
  split_ifs
  · exact keeps_reallymarkobject
  · exact Keeps.refl g

theorem keeps_traverseproto {p : Nat} : Keeps g (traverseproto p g) :=
  (keeps_all (fun _ _ _ => keeps_white2gray) g).trans <| (keeps_all (fun _ _ _ => keeps_markvalue) _).trans <|
    (keeps_all (fun _ _ _ => keeps_white2gray) _).trans <| (keeps_all (fun _ _ _ => keeps_markobject) _).trans <|
      keeps_all (fun _ _ _ => keeps_white2gray) _

theorem keeps_traverseclosure {cl : Nat} : Keeps g (traverseclosure cl g) := by
  rw [traverseclosure]
  cases g.heap.closure cl with
  | c env upvalue => exact keeps_marktable.trans (keeps_all (fun _ _ _ => keeps_markvalue) _)
  | l env p upvals =>
    exact keeps_marktable.trans (keeps_markobject.trans (keeps_all (fun _ _ _ => keeps_markobject) _))

theorem keeps_traversestack {th : Nat} : Keeps g (traversestack th g) :=
  keeps_markvalue.trans ((keeps_all (fun _ _ _ => keeps_markvalue) _).trans (.of_eq rfl rfl rfl))

theorem keeps_markentry {weakkey weakvalue : Bool} {nd : Node} : Keeps g (markentry weakkey weakvalue nd g) := by
  have hkey : Keeps g (if weakkey then g else markvalue nd.key g) := by
    split_ifs
    · exact Keeps.refl g
    · exact keeps_markvalue
  simp only [markentry]
  by_cases hempty : nd.isEmpty = true
  · rw [if_pos hempty]
    exact Keeps.refl g
  · rw [if_neg hempty]
    by_cases hvalue : weakvalue = true
    · rw [if_pos hvalue]
      exact hkey
    · rw [if_neg hvalue]
      exact hkey.trans keeps_markvalue

theorem keeps_traversetable {t : Nat} : Keeps g (traversetable t g).2 := by
  have hmt : Keeps g (markmetatable (g.heap.table t).metatable g) := keeps_markmetatable
  rw [traversetable]
  generalize markmetatable (g.heap.table t).metatable g = g1 at hmt ⊢
  simp only
  generalize weakmode g1 t = r
  obtain ⟨weakkey, weakvalue⟩ := r
  have hmode : Keeps g (if (weakkey || weakvalue) = true then
      { g1.mark (.table t) (setweak weakkey weakvalue) with weak := t :: g1.weak } else g1) := by
    split_ifs
    · exact hmt.trans ((keeps_other (by simp)).trans (.of_eq rfl rfl rfl))
    · exact hmt
  generalize (if (weakkey || weakvalue) = true then
      { g1.mark (.table t) (setweak weakkey weakvalue) with weak := t :: g1.weak } else g1) = g2 at hmode ⊢
  have harray : Keeps g (if weakvalue = true then g2 else marksAll markvalue (g.heap.table t).array.reverse g2) := by
    split_ifs
    · exact hmode
    · exact hmode.trans (keeps_all (fun _ _ _ => keeps_markvalue) _)
  have hempty : ∀ g3 : State, Keeps g3 (removeempty t g3) := fun _ => .of_eq rfl rfl rfl
  by_cases hboth : (weakkey && weakvalue) = true
  · rw [if_pos hboth]
    exact hmode
  · rw [if_neg hboth]
    exact harray.trans ((hempty _).trans (keeps_all (fun _ _ _ => keeps_markentry) _))

theorem keeps_propagatemark : Keeps g (propagatemark g) := by
  rw [propagatemark]
  cases g.gray with
  | nil => exact Keeps.refl g
  | cons o gray =>
    have hblack : Keeps g (g.mark o gray2black) := keeps_gray2black
    have hrest : Keeps g { g.mark o gray2black with gray := gray } := hblack.trans (.of_eq rfl rfl rfl)
    cases o with
    | table t =>
      simp only
      split_ifs
      · exact hrest.trans (keeps_traversetable.trans keeps_black2gray)
      · exact hrest.trans keeps_traversetable
    | function cl => exact hrest.trans keeps_traverseclosure
    | thread th =>
      refine hblack.trans (Keeps.trans ?_ keeps_traversestack)
      exact (keeps_other (by simp)).trans (.of_eq rfl rfl rfl)
    | proto p => exact hrest.trans keeps_traverseproto
    | string ts => exact hblack
    | userdata u => exact hblack
    | upval uv => exact hblack

theorem keeps_propagateTimes {n : Nat} : Keeps g (propagateTimes n g) := by
  induction n generalizing g with
  | zero => exact Keeps.refl g
  | succ n ih =>
    rw [propagateTimes]
    split_ifs
    · exact Keeps.refl g
    · exact keeps_propagatemark.trans ih

theorem keeps_markmt : Keeps g (markmt g) := keeps_all (fun _ _ _ => keeps_markmetatable) g

theorem keeps_markroot : Keeps g (markroot g) := by
  have hbegin : Keeps g { g with gray := [], grayagain := [], weak := [] } := .of_eq rfl rfl rfl
  have hend : ∀ g1 : State, Keeps g1 { g1 with gcstate := .GCSpropagate } := fun _ => .of_eq rfl rfl rfl
  rw [markroot]
  exact hbegin.trans (keeps_markobject.trans (keeps_markvalue.trans (keeps_markvalue.trans (keeps_markmt.trans
    (hend _)))))

theorem keeps_remarkall : Keeps g (remarkall g) := by
  have hupvals : Keeps g (remarkupvals g) := keeps_all (fun uv _ g => by
    rw [remarkupval]
    split_ifs
    · exact keeps_markvalue
    · exact Keeps.refl g) g
  have hweak : Keeps g (propagateall (remarkupvals g)) := hupvals.trans keeps_propagateTimes
  have hagain : Keeps g (propagateall (markmt (markobject (.thread (propagateall (remarkupvals g)).running)
      { propagateall (remarkupvals g) with
        gray := (propagateall (remarkupvals g)).weak.map .table, weak := [] }))) := by
    have hlist : Keeps (propagateall (remarkupvals g)) { propagateall (remarkupvals g) with
        gray := (propagateall (remarkupvals g)).weak.map .table, weak := [] } := .of_eq rfl rfl rfl
    exact hweak.trans (hlist.trans (keeps_markobject.trans (keeps_markmt.trans keeps_propagateTimes)))
  have hlist : ∀ g1 : State, Keeps g1 { g1 with gray := g1.grayagain, grayagain := [] } := fun _ => .of_eq rfl rfl rfl
  exact hagain.trans ((hlist _).trans keeps_propagateTimes)

theorem keeps_marktmu : Keeps g (marktmu g) :=
  keeps_all (fun u _ _ => (keeps_whiten (.userdata u)).trans keeps_reallymarkobject) g

theorem keeps_iscleared {v : TValue} {iskey : Bool} : Keeps g (iscleared v iskey g).2 := by
  cases v with
  | string ts => exact keeps_white2gray
  | nil => exact Keeps.refl g
  | plain n => exact Keeps.refl g
  | userdata u => exact Keeps.refl g
  | function cl => exact Keeps.refl g
  | table t => exact Keeps.refl g
  | thread th => exact Keeps.refl g
  | proto p => exact Keeps.refl g

theorem keeps_cleararray {l : List TValue} : Keeps g (cleararray l g).2 := by
  induction l with
  | nil => exact Keeps.refl g
  | cons v l ih => exact ih.trans keeps_iscleared

theorem keeps_clearnode {nd : Node} : Keeps g (clearnode nd g).2 := by
  rw [clearnode]
  split_ifs
  · exact Keeps.refl g
  · have hkey : Keeps g (iscleared nd.key true g).2 := keeps_iscleared
    generalize iscleared nd.key true g = r at hkey
    obtain ⟨clearedkey, g1⟩ := r
    cases clearedkey with
    | true => exact hkey
    | false =>
      have hval : Keeps g1 (iscleared nd.val false g1).2 := keeps_iscleared
      simp only
      generalize iscleared nd.val false g1 = r at hval
      obtain ⟨clearedval, g2⟩ := r
      cases clearedval with
      | true => exact hkey.trans hval
      | false => exact hkey.trans hval

theorem keeps_clearnodes {l : List Node} : Keeps g (clearnodes l g).2 := by
  induction l with
  | nil => exact Keeps.refl g
  | cons nd l ih => exact ih.trans keeps_clearnode

theorem keeps_cleartable {t : Nat} : Keeps g (cleartable t g) := by
  have harray : Keeps g (if testbit (g.marked (.table t)) VALUEWEAKBIT then cleararray (g.heap.table t).array g
      else ((g.heap.table t).array, g)).2 := by
    split_ifs
    · exact keeps_cleararray
    · exact Keeps.refl g
  exact harray.trans (keeps_clearnodes.trans (.of_eq rfl rfl rfl))

theorem keeps_cleartables : Keeps g (cleartables g) := keeps_all (fun _ _ _ => keeps_cleartable) g

/-! ### Barriers and upvalues -/

theorem keeps_barrier {p : GCObject} : Keeps g (luaCObjbarrier p o g) := by
  rw [luaCObjbarrier]
  split_ifs
  · rw [luaCBarrierf]
    split_ifs
    · exact keeps_reallymarkobject
    · exact keeps_whiten _
  · exact Keeps.refl g

theorem keeps_barrierValue {p : GCObject} {v : TValue} : Keeps g (luaCBarrier p v g) := by
  rw [luaCBarrier]
  cases v.gcvalue with
  | none => exact Keeps.refl g
  | some o => exact keeps_barrier

theorem keeps_barriert {t : Nat} : Keeps g (luaCObjbarriert t o g) := by
  rw [luaCObjbarriert]
  split_ifs
  · exact keeps_black2gray.trans (.of_eq rfl rfl rfl)
  · exact Keeps.refl g

theorem keeps_barriertValue {t : Nat} {v : TValue} : Keeps g (luaCBarriert t v g) := by
  rw [luaCBarriert]
  cases v.gcvalue with
  | none => exact Keeps.refl g
  | some o => exact keeps_barriert

theorem keeps_heap (hp : Heap) : Keeps g (g.setHeap hp) := .of_eq rfl rfl rfl

theorem keeps_linkupval {uv : Nat} : Keeps g (luaCLinkupval uv g) := by
  have hlist : Keeps g { g with rootgc := .upval uv :: g.rootgc } := .of_eq rfl rfl rfl
  simp only [luaCLinkupval]
  split_ifs
  · exact hlist.trans (keeps_gray2black.trans keeps_barrierValue)
  · exact hlist.trans (keeps_whiten _)
  · exact hlist

theorem keeps_closeupval {th uv : Nat} {l : List Nat} : Keeps g (closeupval th uv l g) := by
  have hlist : Keeps g (luaFFreeupval uv (setopenupval th l g)) := .of_eq rfl rfl rfl
  simp only [closeupval]
  split_ifs
  · exact hlist
  · have hclose := hlist.trans (keeps_heap ((luaFFreeupval uv (setopenupval th l g)).heap.setUpval uv
      (.closed ((luaFFreeupval uv (setopenupval th l g)).heap.upvalue uv))))
    exact hclose.trans keeps_linkupval

theorem keeps_closeall {th : Nat} {l : List Nat} : Keeps g (closeall th l g) := by
  induction l generalizing g with
  | nil => exact Keeps.refl g
  | cons uv l ih => exact keeps_closeupval.trans ih

/-! ### Sweeping -/

theorem keeps_sweepopenupval {th : Nat} : Keeps g (sweepopenupval th g) := by
  have hone : ∀ uv (g1 : State), Keeps g1 (luaFFreeupval uv g1) := fun _ _ => .of_eq rfl rfl rfl
  have hfree : ∀ l, Keeps g (marksAll luaFFreeupval l g) := fun _ => keeps_all (fun uv _ => hone uv) g
  have hset : ∀ l (g1 : State), Keeps g1 (setopenupval th l g1) := fun _ _ => .of_eq rfl rfl rfl
  exact (hfree _).trans ((hset _ _).trans (keeps_all (fun _ _ _ => keeps_whiten _) _))

theorem keeps_sweepstrings {i : Nat} : Keeps g (sweepstrings i g) := by
  have hset : ∀ strt, Keeps g { g with strt := strt } := fun _ => .of_eq rfl rfl rfl
  exact (hset _).trans (keeps_all (fun _ _ _ => keeps_whiten _) _)

theorem keeps_sweepobject (h : Inv g) (ho : g.swept = some o) : Keeps g (sweepobject o g) := by
  have hplain : (∀ th, o ≠ .thread th) → (∀ u, o ≠ .userdata u) → Keeps g (sweepobject o g) := by
    intro hth hu
    have hlist : ∀ l, Keeps g { g with rootgc := l } := fun _ => .of_eq rfl rfl rfl
    have hend : Keeps (g.whiten o) { g.whiten o with sweepgc := some o } := .of_eq rfl rfl rfl
    cases o with
    | thread th => exact absurd rfl (hth th)
    | userdata u => exact absurd rfl (hu u)
    | string ts =>
      simp only [sweepobject]
      split_ifs
      · exact (keeps_whiten _).trans hend
      · exact hlist _
    | upval uv =>
      simp only [sweepobject]
      split_ifs
      · exact (keeps_whiten _).trans hend
      · exact hlist _
    | function cl =>
      simp only [sweepobject]
      split_ifs
      · exact (keeps_whiten _).trans hend
      · exact hlist _
    | table t =>
      simp only [sweepobject]
      split_ifs
      · exact (keeps_whiten _).trans hend
      · exact hlist _
    | proto p =>
      simp only [sweepobject]
      split_ifs
      · exact (keeps_whiten _).trans hend
      · exact hlist _
  by_cases hth : ∃ th, o = .thread th
  · obtain ⟨th, rfl⟩ := hth
    have hup : Keeps g (sweepopenupval th g) := keeps_sweepopenupval
    simp only [sweepobject]
    generalize sweepopenupval th g = g1 at hup ⊢
    have hend : Keeps (g1.whiten (.thread th)) { g1.whiten (.thread th) with sweepgc := some (.thread th) } :=
      .of_eq rfl rfl rfl
    have hlist : Keeps g1 (unlink (.thread th) g1) := .of_eq rfl rfl rfl
    split_ifs
    · exact hup.trans ((keeps_whiten _).trans hend)
    · exact hup.trans (hlist.trans keeps_closeall)
  by_cases hu : ∃ u, o = .userdata u
  · obtain ⟨u, rfl⟩ := hu
    have hend : Keeps (g.whiten (.userdata u)) { g.whiten (.userdata u) with sweepgc := some (.userdata u) } :=
      .of_eq rfl rfl rfl
    simp only [sweepobject]
    split_ifs with hsurvives
    · exact (keeps_whiten _).trans hend
    · -- Pending userdata is a root, and lives.
      have hout : u ∉ g.tmudata := fun hin => by
        have hroot := h.roots (.userdata u) (State.tmudata_mem_roots hin)
        exact hsurvives (h.survives_of_alive hroot.1 hroot.2)
      exact ⟨fun _ hfin => hfin, List.erase_sublist, List.erase_of_not_mem hout⟩
  · exact hplain (fun th heq => hth ⟨th, heq⟩) fun u heq => hu ⟨u, heq⟩

theorem keeps_sweeplist {n : Nat} (h : Inv g) (hs : g.gcstate = .GCSsweep) : Keeps g (sweeplist n g) := by
  induction n generalizing g with
  | zero => exact Keeps.refl g
  | succ n ih =>
    rw [sweeplist]
    cases ho : g.swept with
    | none => exact Keeps.refl g
    | some o =>
      obtain ⟨h1, hs1⟩ := sweepobject_inv h hs ho
      exact (keeps_sweepobject h ho).trans (ih h1 hs1)

end Keeps

/-! ## The queue of finalizers -/

section Queue

variable {g g' g'' : State} {l l' popped : List Nat}

/-- The userdata that has not been found yet. -/
def State.unfound (g : State) : List Nat := g.udata.filter fun u => !isfinalized (g.marked (.userdata u))

/-- Userdata in `popped` leaves the queue, and what is found joins it at its end. -/
structure Moves (popped l : List Nat) (g g' : State) : Prop where
  finalized : ∀ u, isfinalized (g.marked (.userdata u)) = true → isfinalized (g'.marked (.userdata u)) = true
  queue : popped ++ g'.tmudata = g.tmudata ++ l
  found : l.Sublist g.unfound
  unfound : g'.unfound.Sublist g.unfound

theorem filter_sublist_filter {α : Type} {p q : α → Bool} {l l' : List α} (h : l'.Sublist l) (hpq : ∀ x, p x = true → q x = true) :
    (l'.filter p).Sublist (l.filter q) := by
  have hsub := List.monotone_filter_right l' (p := p) (q := q) hpq
  exact hsub.trans (h.filter q)

theorem Keeps.moves (h : Keeps g g') : Moves [] [] g g' := by
  refine ⟨h.finalized, by rw [h.tmudata, List.append_nil, List.nil_append], List.nil_sublist _, ?_⟩
  refine filter_sublist_filter h.udata fun u hu => ?_
  cases hfin : isfinalized (g.marked (.userdata u)) with
  | false => rfl
  | true => simp [h.finalized u hfin] at hu

theorem Moves.keeps (h : Moves popped l g g') (h' : Keeps g' g'') : Moves popped l g g'' :=
  ⟨fun u hu => h'.finalized u (h.finalized u hu), by rw [h'.tmudata]; exact h.queue, h.found,
    h'.moves.unfound.trans h.unfound⟩

theorem Keeps.before (h : Keeps g g') (h' : Moves popped l g' g'') : Moves popped l g g'' :=
  ⟨fun u hu => h'.finalized u (h.finalized u hu), by rw [← h.tmudata]; exact h'.queue, h'.found.trans h.moves.unfound,
    h'.unfound.trans h.moves.unfound⟩

/-- `luaC_separateudata` appends userdata in the order of the list. -/
theorem separate_moves (all : Bool) (hl : g.udata.Nodup) :
    ∃ l, Moves [] l g (luaCSeparateudata all g) ∧ ∀ u ∈ l, found all g u = true ∧ hasgc g u = true := by
  have hmoved : Moved g (luaCSeparateudata all g) := luaCSeparateudata_moved hl
  have h : Separated all g.udata { g with udata := [] } (luaCSeparateudata all g) := luaCSeparateudata_spec hl
  refine ⟨g.udata.filter fun u => found all g u && hasgc g u, ⟨fun u => hmoved.finalized, ?_, ?_, ?_⟩, fun u hu => ?_⟩
  · exact h.tmudata
  · refine filter_sublist_filter (List.Sublist.refl _) fun u hu => ?_
    rw [found] at hu
    cases hfin : isfinalized (g.marked (.userdata u)) with
    | false => rfl
    | true => simp [hfin] at hu
  · have hsub : (luaCSeparateudata all g).udata.Sublist g.udata := by
      rw [h.udata]
      exact List.filter_sublist
    refine filter_sublist_filter hsub fun u hu => ?_
    cases hfin : isfinalized (g.marked (.userdata u)) with
    | false => rfl
    | true => simp [hmoved.finalized hfin] at hu
  · have hboth := (List.mem_filter.mp hu).2
    exact Bool.and_eq_true_iff.mp hboth

theorem gctm_moves {u : Nat} (h : Inv g) (hu : g.tmudata.head? = some u) : Moves [u] [] g (gctm g) := by
  obtain ⟨rest, htm⟩ : ∃ rest, g.tmudata = u :: rest := List.head?_eq_some_iff.mp hu
  have hfin : isfinalized (g.marked (.userdata u)) = true := h.lists.tmudata u (htm ▸ List.mem_cons_self)
  have hwhite : Keeps g (g.whiten (.userdata u)) := keeps_whiten _
  have hmain : Moves [u] [] g { g.whiten (.userdata u) with tmudata := rest, udata := u :: g.udata } := by
    refine ⟨hwhite.finalized, ?_, List.nil_sublist _, ?_⟩
    · rw [htm, List.append_nil]
      rfl
    · have hdrop : State.unfound { g.whiten (.userdata u) with tmudata := rest, udata := u :: g.udata } =
          (g.whiten (.userdata u)).unfound := by
        refine List.filter_cons_of_neg ?_
        rw [show isfinalized ((g.whiten (.userdata u)).marked (.userdata u)) = true from hwhite.finalized u hfin]
        decide
      rw [hdrop]
      exact hwhite.moves.unfound
  rw [gctm, htm]
  simp only
  split
  · exact hmain
  · exact hmain.keeps (keeps_heap _)

theorem atomic_moves (h : Inv g) : ∃ l, Moves [] l g (atomic g) := by
  have hremark : Keeps g (remarkall g) := keeps_remarkall
  obtain ⟨l, hl, -⟩ := separate_moves false (hremark.udata.nodup h.udata_nodup)
  have hrest : Keeps (luaCSeparateudata false (remarkall g)) (atomic g) := by
    have hflip : ∀ g1 : State, Keeps g1 (flipwhite g1) := fun _ => .of_eq rfl rfl rfl
    exact keeps_marktmu.trans (keeps_propagateTimes.trans (keeps_cleartables.trans (hflip _)))
  exact ⟨l, hremark.before (hl.keeps hrest)⟩

/-- The userdata that a step takes from the queue, to call its finalizer. -/
def pops (g : State) : Action → Option Nat
  | .callGCTM => g.tmudata.head?
  | .singlestep => if g.gcstate = .GCSfinalize then g.tmudata.head? else none
  | _ => none

theorem mem_of_pops {a : Action} {u : Nat} (h : pops g a = some u) : u ∈ g.tmudata := by
  cases a with
  | callGCTM => exact List.mem_of_mem_head? h
  | singlestep =>
    rw [pops] at h
    split_ifs at h
    exact List.mem_of_mem_head? h
  | _ => cases h

theorem singlestep_moves (h : Inv g) : ∃ l, Moves (pops g .singlestep).toList l g (singlestep g) := by
  have hnone : g.gcstate ≠ .GCSfinalize → pops g .singlestep = none := fun hne => if_neg hne
  cases hs : g.gcstate with
  | GCSpause =>
    rw [hnone (by rw [hs]; decide), singlestep, hs]
    exact ⟨[], keeps_markroot.moves⟩
  | GCSpropagate =>
    rw [hnone (by rw [hs]; decide), singlestep, hs]
    simp only
    split_ifs with hgray
    · exact atomic_moves h
    · exact ⟨[], keeps_propagatemark.moves⟩
  | GCSsweepstring =>
    have hcount : ∀ (g1 : State) n, Keeps g1 { g1 with sweepstrgc := n } := fun _ _ => .of_eq rfl rfl rfl
    have hend : ∀ g1 : State, Keeps g1 { g1 with gcstate := .GCSsweep } := fun _ => .of_eq rfl rfl rfl
    have hsweep : Keeps g { sweepstrings g.sweepstrgc g with sweepstrgc := g.sweepstrgc + 1 } :=
      keeps_sweepstrings.trans (hcount _ _)
    rw [hnone (by rw [hs]; decide), singlestep, hs]
    simp only
    split_ifs
    · exact ⟨[], (hsweep.trans (hend _)).moves⟩
    · exact ⟨[], hsweep.moves⟩
  | GCSsweep =>
    have hend : ∀ g1 : State, Keeps g1 { g1 with gcstate := .GCSfinalize } := fun _ => .of_eq rfl rfl rfl
    have hsweep : Keeps g (sweeplist GCSWEEPMAX g) := keeps_sweeplist h hs
    rw [hnone (by rw [hs]; decide), singlestep, hs]
    simp only
    split
    · exact ⟨[], (hsweep.trans (hend _)).moves⟩
    · exact ⟨[], hsweep.moves⟩
  | GCSfinalize =>
    have hsome : pops g .singlestep = g.tmudata.head? := if_pos hs
    rw [hsome, singlestep, hs]
    simp only
    split
    · rename_i htm
      have hhead : g.tmudata.head? = none := by rw [htm, List.head?_nil]
      have hpause : Keeps g { g with gcstate := .GCSpause } := .of_eq rfl rfl rfl
      rw [hhead]
      exact ⟨[], hpause.moves⟩
    · rename_i u rest htm
      have hhead : g.tmudata.head? = some u := by rw [htm, List.head?_cons]
      rw [hhead]
      exact ⟨[], gctm_moves h hhead⟩

/-- A new object that is no userdata. -/
theorem keeps_newmark {o : GCObject} (ho : ∀ u, o ≠ .userdata u) : Keeps g (newmark o g) := keeps_other ho

theorem keeps_link {o : GCObject} {hp : Heap} (ho : ∀ u, o ≠ .userdata u) : Keeps g (luaCLink o (g.setHeap hp)) := by
  have hlist : Keeps (newmark o (g.setHeap hp)) (luaCLink o (g.setHeap hp)) := .of_eq rfl rfl rfl
  exact (keeps_heap hp).trans ((keeps_newmark ho).trans hlist)

theorem keeps_openupval {uv : Nat} {hp : Heap} {uvhead : List Nat} :
    Keeps g { newmark (.upval uv) (g.setHeap hp) with uvhead := uvhead } := by
  have hnew : Keeps g (newmark (.upval uv) (g.setHeap hp)) := (keeps_heap hp).trans (keeps_newmark (by simp))
  exact hnew.trans (.of_eq rfl rfl rfl)

theorem keeps_newlstr {ts i : Nat} {str : Bytes} : Keeps g (newlstr ts str i g) := by
  have hnew : Keeps g (newmark (.string ts) (g.setHeap (g.heap.setStr ts str))) :=
    (keeps_heap _).trans (keeps_newmark (by simp))
  exact hnew.trans (.of_eq rfl rfl rfl)

theorem keeps_resurrect {o : GCObject} (ho : ∀ u, o ≠ .userdata u) : Keeps g (resurrect o g) := by
  rw [resurrect]
  split_ifs
  · exact keeps_other ho
  · exact Keeps.refl g

theorem keeps_capture (k : Capture) : Keeps g (capture k g).2 := by
  cases k with
  | share uv => exact Keeps.refl g
  | new uv => exact keeps_link (by simp)
  | find level uv =>
    simp only [capture, luaFFindupval]
    split
    · exact keeps_resurrect (by simp)
    · exact keeps_openupval

theorem keeps_captures {l : List Capture} : Keeps g (captures l g).2 := by
  induction l generalizing g with
  | nil => exact Keeps.refl g
  | cons k l ih => exact (keeps_capture k).trans ih

theorem keeps_pushes {l : List TValue} : Keeps g (pushes l g) := .of_eq rfl rfl rfl

theorem keeps_luaSetfenv {o : GCObject} {env : Nat} : Keeps g (luaSetfenv o env g) := (keeps_heap _).trans keeps_barrier

/-- Only the collector changes the queue. -/
theorem perform_moves {a : Action} (h : Inv g) (ha : ∀ u env, a ≠ .newudata u env) :
    ∃ l, Moves (pops g a).toList l g (perform a g) := by
  have hkeeps : pops g a = none → Keeps g (perform a g) → ∃ l, Moves (pops g a).toList l g (perform a g) := by
    intro hnone hk
    rw [hnone]
    exact ⟨[], hk.moves⟩
  cases a with
  | singlestep => exact singlestep_moves h
  | close =>
    have hbegin : Keeps g { g with closing := true, running := g.mainthread } := .of_eq rfl rfl rfl
    obtain ⟨l, hl, -⟩ := 
      separate_moves (g := { g with closing := true, running := g.mainthread }) true h.udata_nodup
    exact ⟨l, hbegin.before hl⟩
  | callGCTM =>
    cases hhead : g.tmudata.head? with
    | none =>
      have hnone : g.tmudata = [] := List.head?_eq_none_iff.mp hhead
      refine hkeeps hhead ?_
      rw [perform, gctm, hnone]
      exact Keeps.refl g
    | some u =>
      rw [pops, hhead]
      exact ⟨[], gctm_moves h hhead⟩
  | newudata u env => exact absurd rfl (ha u env)
  | markroot => exact hkeeps rfl keeps_markroot
  | resetsweep => exact hkeeps rfl (.of_eq rfl rfl rfl)
  | push v => exact hkeeps rfl keeps_pushes
  | setstack th i v => exact hkeeps rfl (keeps_heap _)
  | settop th n => exact hkeeps rfl (keeps_heap _)
  | setlim th n => exact hkeeps rfl (keeps_heap _)
  | resume th => exact hkeeps rfl (.of_eq rfl rfl rfl)
  | newtable t => exact hkeeps rfl ((keeps_link (by simp)).trans keeps_pushes)
  | newCclosure cl env upvalue => exact hkeeps rfl ((keeps_link (by simp)).trans keeps_pushes)
  | newLclosure cl env p l =>
    have hnew : Keeps g (captures l (luaFNewLclosure cl env p g)).2 := (keeps_link (by simp)).trans keeps_captures
    exact hkeeps rfl (hnew.trans ((keeps_heap _).trans keeps_pushes))
  | newproto p => exact hkeeps rfl ((keeps_link (by simp)).trans keeps_pushes)
  | newthread th => exact hkeeps rfl ((keeps_link (by simp)).trans keeps_pushes)
  | newlstr ts str i => exact hkeeps rfl (keeps_newlstr.trans keeps_pushes)
  | findstr ts => exact hkeeps rfl ((keeps_resurrect (by simp)).trans keeps_pushes)
  | fix ts =>
    have hfix : Keeps g (g.mark (.string ts) (· ||| bitmask FIXEDBIT)) := keeps_other (by simp)
    exact hkeeps rfl hfix
  | resize strt => exact hkeeps rfl (.of_eq rfl rfl rfl)
  | closeupval th =>
    refine hkeeps rfl ?_
    rw [perform]
    cases (g.heap.thread th).openupval with
    | nil => exact Keeps.refl g
    | cons uv l => exact keeps_closeupval
  | settable t newkey v array node =>
    exact hkeeps rfl ((keeps_heap _).trans (keeps_barriertValue.trans keeps_barriertValue))
  | setmetatable t mt =>
    cases mt with
    | none => exact hkeeps rfl (keeps_heap _)
    | some m => exact hkeeps rfl ((keeps_heap _).trans keeps_barriert)
  | setudatametatable u mt =>
    cases mt with
    | none => exact hkeeps rfl (keeps_heap _)
    | some m => exact hkeeps rfl ((keeps_heap _).trans keeps_barrier)
  | settypemetatable tt mt => exact hkeeps rfl (.of_eq rfl rfl rfl)
  | setfenv o env => exact hkeeps rfl keeps_luaSetfenv
  | opSetupval uv v => exact hkeeps rfl ((keeps_heap _).trans keeps_barrierValue)
  | setupvalue cl n v => exact hkeeps rfl ((keeps_heap _).trans keeps_barrierValue)
  | setproto p x o => exact hkeeps rfl ((keeps_heap _).trans keeps_barrier)

/-! ## Runs -/

/-- A state, the userdata in it whose finalizers have been called, and all userdata that has been made, the last
one first. -/
structure Logged where
  g : State
  called : List Nat
  born : List Nat

/-- A step, with the userdata that it takes from the queue or makes. -/
def log (a : Action) (s : Logged) : Logged :=
  match a with
  | .newudata u _ => ⟨perform a s.g, s.called.filter (· ≠ u), u :: s.born.filter (· ≠ u)⟩
  | _ => ⟨perform a s.g, (pops s.g a).toList ++ s.called, s.born⟩

def LoggedStep (s s' : Logged) : Prop := ∃ a, Allowed s.g a ∧ Shielded s.g a ∧ s' = log a s

/-- Userdata that has been called is not in the queue, and what has not been found is in the order of its birth. -/
structure Queued (s : Logged) : Prop where
  inv : Inv s.g
  called : ∀ u ∈ s.called, isfinalized (s.g.marked (.userdata u)) = true ∧ u ∉ s.g.tmudata
  born : s.g.unfound.Sublist s.born

/-- Nothing is in the queue twice, also after a step. -/
theorem Moves.nodup (hm : Moves popped l g g') (h : Inv g) : (popped ++ g'.tmudata).Nodup := by
  have hall := h.lists.nodup
  rw [State.objects] at hall
  have hqueue : g.tmudata.Nodup :=
    ((List.nodup_append.mp (List.nodup_append.mp (List.nodup_append.mp hall).2.1).2.1).2.1).of_map _
  have hl : l.Nodup := hm.found.nodup (h.udata_nodup.filter _)
  rw [hm.queue]
  refine List.Nodup.append hqueue hl fun u hu hul => ?_
  have hudata : u ∈ g.udata := (List.mem_filter.mp (hm.found.subset hul)).1
  have hin : GCObject.userdata u ∈ g.mainlist :=
    List.mem_append_right _ (List.mem_cons_of_mem _ (List.mem_map_of_mem hudata))
  exact not_mem_mainlist_of_pending h.lists ⟨u, hu, rfl⟩ hin

theorem queued_log {a : Action} {s : Logged} (h : Queued s) (ha : Allowed s.g a) (hs : Shielded s.g a) :
    Queued (log a s) := by
  have hinv := perform_inv h.inv ha hs
  by_cases hnew : ∃ u env, a = .newudata u env
  · obtain ⟨u, env, rfl⟩ := hnew
    have hout : GCObject.userdata u ∉ s.g.objects := ha.1
    have hu : u ∉ s.g.udata := fun hin => hout (mem_objects_iff.mpr (.inr (.inr (.inr (.inr ⟨u, .inl hin, rfl⟩)))))
    have hother : ∀ u', u' ≠ u → (perform (.newudata u env) s.g).marked (.userdata u') = s.g.marked (.userdata u') :=
      fun u' hne => by
        have hmarked : (perform (.newudata u env) s.g).marked =
            Function.update s.g.marked (.userdata u) (luaCWhite s.g.currentwhite) := rfl
        rw [hmarked]
        exact Function.update_of_ne (fun heq => hne (GCObject.userdata.inj heq)) ..
    refine ⟨hinv, fun u' hu' => ?_, ?_⟩
    · obtain ⟨hin, hne⟩ := List.mem_filter.mp hu'
      have hne : u' ≠ u := of_decide_eq_true hne
      change isfinalized ((perform (.newudata u env) s.g).marked (.userdata u')) = true ∧ _
      rw [hother u' hne]
      exact h.called u' hin
    · have hsub : ((u :: s.g.udata).filter fun u' =>
          !isfinalized ((perform (.newudata u env) s.g).marked (.userdata u'))).Sublist (u :: s.g.unfound) := by
        have hrest : (s.g.udata.filter fun u' =>
            !isfinalized ((perform (.newudata u env) s.g).marked (.userdata u'))) = s.g.unfound :=
          List.filter_congr fun u' hu' => by rw [hother u' fun heq => hu (heq ▸ hu')]
        rw [List.filter_cons, hrest]
        split_ifs
        · exact List.Sublist.refl _
        · exact List.sublist_cons_self _ _
      have hself : s.g.unfound.filter (· ≠ u) = s.g.unfound :=
        List.filter_eq_self.mpr fun u' hu' => decide_eq_true fun heq =>
          hu (heq ▸ (List.mem_filter.mp hu').1)
      refine hsub.trans (List.Sublist.cons_cons u ?_)
      rw [← hself]
      exact h.born.filter _
  · have hne : ∀ u env, a ≠ .newudata u env := fun u env heq => hnew ⟨u, env, heq⟩
    obtain ⟨l, hm⟩ := perform_moves h.inv hne
    have heq : log a s = ⟨perform a s.g, (pops s.g a).toList ++ s.called, s.born⟩ := by
      rw [log]
      exact hne
    rw [heq]
    have hnodup := hm.nodup h.inv
    refine ⟨hinv, fun u hu => ?_, hm.unfound.trans h.born⟩
    rcases List.mem_append.mp hu with hpop | hold
    · refine ⟨hm.finalized u ?_, fun hin => ?_⟩
      · exact h.inv.lists.tmudata u (mem_of_pops (Option.mem_toList.mp hpop))
      · exact (List.nodup_append.mp hnodup).2.2 u hpop u hin rfl
    · obtain ⟨hfin, hout⟩ := h.called u hold
      refine ⟨hm.finalized u hfin, fun hin => ?_⟩
      have hqueue : u ∈ s.g.tmudata ++ l := hm.queue ▸ List.mem_append_right _ hin
      rcases List.mem_append.mp hqueue with hin | hin
      · exact hout hin
      · have hunfound := (List.mem_filter.mp (hm.found.subset hin)).2
        rw [hfin] at hunfound
        cases hunfound

/-- Every run: userdata whose finalizer is called has not been called before, since it was made, and is there
still; and the queue is served in its order, which is the reverse order of birth of what joins it together. -/
theorem finalizers_once {a : Action} {s : Logged} (h : Run.Reach (· = ⟨start, [], []⟩) LoggedStep s) (ha : Allowed s.g a)
    (hs : Shielded s.g a) :
    (∀ u, pops s.g a = some u → u ∉ s.called ∧ .userdata u ∈ s.g.objects) ∧
      ∃ l, (pops s.g a).toList ++ (perform a s.g).tmudata = s.g.tmudata ++ l ∧ l.Sublist s.born := by
  have hq : Queued s := by
    refine h.inv Queued ?_ ?_
    · rintro _ rfl
      exact ⟨start_inv, fun _ hu => (List.not_mem_nil hu).elim, List.nil_sublist _⟩
    · rintro _ _ hq ⟨b, hb, hsb, rfl⟩
      exact queued_log hq hb hsb
  refine ⟨fun u hu => ⟨fun hin => (hq.called u hin).2 (mem_of_pops hu), ?_⟩, ?_⟩
  · exact mem_objects_iff.mpr (.inr (.inr (.inr (.inr ⟨u, .inr (mem_of_pops hu), rfl⟩))))
  · by_cases hnew : ∃ u env, a = .newudata u env
    · obtain ⟨u, env, rfl⟩ := hnew
      exact ⟨[], (List.append_nil _).symm, List.nil_sublist _⟩
    · obtain ⟨l, hm⟩ := perform_moves hq.inv fun u env heq => hnew ⟨u, env, heq⟩
      exact ⟨l, hm.queue, hm.found.trans hq.born⟩

/-- Userdata with a finalizer that is on the stack when the state is closed. -/
def closed : Logged :=
  [.findstr 0, .newtable 2, .newCclosure 0 0 [],
    .settable 2 (some (.string 0)) (.function 0) [] [⟨.string 0, false, .function 0⟩],
    .newudata 0 0, .setudatametatable 0 (some 2), .close].foldl (fun s a => log a s) ⟨start, [], []⟩

theorem closed_run : Run.Reach (· = ⟨start, [], []⟩) LoggedStep closed := by
  have hstack : ∀ {g : State} {o : GCObject}, .thread 0 ∈ g.roots → o ∈ refs g.heap (.thread 0) → Accessible g o :=
    fun hroot ho => .step (.start hroot) ho
  have h1 : Run.Reach (· = ⟨start, [], []⟩) LoggedStep (log (.findstr 0) ⟨start, [], []⟩) :=
    .step (.start rfl) ⟨.findstr 0, show GCObject.string 0 ∈ start.objects by decide, trivial, rfl⟩
  have h2 := h1.step ⟨.newtable 2, show GCObject.table 2 ∉ State.objects _ by decide, trivial, rfl⟩
  have h3 := h2.step ⟨.newCclosure 0 0 [], ⟨show GCObject.function 0 ∉ State.objects _ by decide,
    hstack (by decide) (by decide), fun _ hv => (List.not_mem_nil hv).elim⟩, trivial, rfl⟩
  have h4 := h3.step ⟨.settable 2 (some (.string 0)) (.function 0) [] [⟨.string 0, false, .function 0⟩],
    ⟨hstack (by decide) (by decide), by rintro o ⟨⟩; exact hstack (by decide) (by decide),
      by rintro k ⟨⟩ o ⟨⟩; exact hstack (by decide) (by decide), by decide⟩, trivial, rfl⟩
  have h5 := h4.step ⟨.newudata 0 0, ⟨show GCObject.userdata 0 ∉ State.objects _ by decide,
    hstack (by decide) (by decide)⟩, trivial, rfl⟩
  have h6 := h5.step ⟨.setudatametatable 0 (some 2), ⟨hstack (by decide) (by decide),
    by rintro t ⟨⟩; exact hstack (by decide) (by decide)⟩, trivial, rfl⟩
  exact h6.step ⟨.close, show State.closing _ = false by decide, trivial, rfl⟩

theorem finalizers_once_closed : pops closed.g .callGCTM = some 0 ∧ 0 ∉ closed.called := by
  have hpops : pops closed.g .callGCTM = some 0 := by decide
  have hclosing : Allowed closed.g .callGCTM := show closed.g.closing = true by decide
  have hstate : Shielded closed.g .callGCTM := show closed.g.gcstate ≠ .GCSpropagate by decide
  exact ⟨hpops, ((finalizers_once closed_run hclosing hstate).1 0 hpops).1⟩

end Queue

end UgmeeLua.Gc

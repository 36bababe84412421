import UgmeeLua.Lgc.Stores
import Mathlib.Data.List.GetD

namespace UgmeeLua.Gc

/-! ## What the program stores -/

section Threads

variable {g : State} {o c : GCObject}

theorem upvalue_of_opened (hp : Heap) {uv th level : Nat} (h : hp.upval uv = .opened th level) :
    hp.upvalue uv = (hp.thread th).stack level := by rw [Heap.upvalue, h]

/-- The values of a thread and of its open upvalues change. They are never black. -/
theorem Inv.storeThread {th : Nat} {x : Thread} (h : Inv g) (hopen : x.openupval = (g.heap.thread th).openupval)
    (hgt : x.gt = (g.heap.thread th).gt ∨ ∀ c ∈ gcvalues [x.gt], Alive g c)
    (hstack : ∀ i, (x.stack i = (g.heap.thread th).stack i ∧ (i < x.top → i < (g.heap.thread th).top)) ∨
      ∀ c ∈ gcvalues [x.stack i], Alive g c) : Inv (g.setHeap (g.heap.setThread th x)) := by
  have hnone : Barred (.thread th) [] g g := h.unbarred fun _ _ hc => (List.not_mem_nil hc).elim
  refine hnone.store (fun _ _ _ => Iff.rfl) (fun th' => ?_) fun o _ c hc => ?_
  · by_cases heq : th' = th
    · rw [heq, Heap.thread_self, hopen]
    · rw [Heap.thread_other _ _ heq]
  cases o with
  | thread th' =>
    by_cases heq : th' = th
    · subst heq
      rw [refs, Heap.thread_self, Thread.refs] at hc
      obtain ⟨v, hv, hval⟩ := mem_gcvalues.mp hc
      have hone : c ∈ gcvalues [v] := mem_gcvalues.mpr ⟨v, List.mem_singleton_self v, hval⟩
      rcases List.mem_cons.mp hv with rfl | hv
      · rcases hgt with hsame | halive
        · exact .inl (mem_gcvalues.mpr ⟨_, List.mem_cons_self, hsame ▸ hval⟩)
        · exact .inr ⟨(halive c hone).1, (halive c hone).2, .inr trivial⟩
      · obtain ⟨i, hi, rfl⟩ := List.mem_map.mp hv
        rcases hstack i with ⟨hsame, htop⟩ | halive
        · refine .inl (mem_gcvalues.mpr ⟨_, List.mem_cons_of_mem _ (List.mem_map.mpr ⟨i, ?_, rfl⟩), hsame ▸ hval⟩)
          exact List.mem_range.mpr (htop (List.mem_range.mp hi))
        · exact .inr ⟨(halive c hone).1, (halive c hone).2, .inr trivial⟩
    · rw [refs, Heap.thread_other _ _ heq] at hc
      exact .inl hc
  | upval uv =>
    rw [refs] at hc ⊢
    cases huv : g.heap.upval uv with
    | closed v =>
      rw [Heap.upvalue, show (g.heap.setThread th x).upval uv = .closed v from huv] at hc
      rw [Heap.upvalue, huv]
      exact .inl hc
    | opened th' level =>
      rw [upvalue_of_opened (g.heap.setThread th x) huv] at hc
      rw [upvalue_of_opened g.heap huv]
      by_cases heq : th' = th
      · subst heq
        rw [Heap.thread_self] at hc
        rcases hstack level with ⟨hsame, -⟩ | halive
        · rw [hsame] at hc
          exact .inl hc
        · exact .inr ⟨(halive c hc).1, (halive c hc).2, .inr ⟨th', level, huv⟩⟩
      · rw [Heap.thread_other _ _ heq] at hc
        exact .inl hc
  | string ts => exact .inl hc
  | userdata u => exact .inl hc
  | function cl => exact .inl hc
  | table t => exact .inl hc
  | proto q => exact .inl hc

theorem notMem_gcvalues_nil : c ∉ gcvalues [.nil] := fun hc => by
  obtain ⟨v, hv, hval⟩ := mem_gcvalues.mp hc
  rw [List.mem_singleton.mp hv] at hval
  cases hval

theorem Inv.pushes {l : List TValue} (h : Inv g) (hl : ∀ c ∈ gcvalues l, Alive g c) : Inv (pushes l g) := by
  refine h.storeThread rfl (.inl rfl) fun i => ?_
  simp only
  split_ifs with htop
  · by_cases hi : i - (g.heap.thread g.running).top < l.length
    · refine .inr fun c hc => hl c ?_
      rw [List.getD_eq_getElem _ _ hi] at hc
      obtain ⟨v, hv, hval⟩ := mem_gcvalues.mp hc
      rw [List.mem_singleton.mp hv] at hval
      exact mem_gcvalues.mpr ⟨_, List.getElem_mem hi, hval⟩
    · refine .inl ⟨List.getD_eq_default _ _ (Nat.not_lt.mp hi), fun hlt => ?_⟩
      omega
  · exact .inl ⟨rfl, fun _ => Nat.not_le.mp htop⟩

theorem Inv.setstack {th i : Nat} {v : TValue} (h : Inv g) (hv : ∀ c ∈ gcvalues [v], Alive g c) :
    Inv (setstack th i v g) := by
  refine h.storeThread rfl (.inl rfl) fun j => ?_
  by_cases hj : j = i
  · subst hj
    simp only [Function.update_self]
    exact .inr hv
  · simp only [Function.update_of_ne hj]
    exact .inl ⟨trivial, id⟩

theorem Inv.settop {th n : Nat} (h : Inv g) : Inv (settop th n g) := by
  refine h.storeThread rfl (.inl rfl) fun i => ?_
  simp only
  split_ifs with hi
  · exact .inr fun c hc => (notMem_gcvalues_nil hc).elim
  · exact .inl ⟨rfl, fun hn => Nat.not_le.mp fun htop => hi ⟨htop, hn⟩⟩

theorem Inv.setlim {th n : Nat} (h : Inv g) : Inv (setlim th n g) :=
  h.storeThread rfl (.inl rfl) fun _ => .inl ⟨rfl, id⟩

end Threads

/-! ## Stores behind a barrier -/

section Barriers

variable {g : State} {o p c : GCObject} {hp : Heap}

/-- What a barrier marks does not depend on what was stored. -/
theorem luaCObjbarrier_setHeap (hmark : reallymarkobject o (g.setHeap hp) = (reallymarkobject o g).setHeap hp) :
    luaCObjbarrier p o (g.setHeap hp) = (luaCObjbarrier p o g).setHeap hp := by
  change (if (g.white o && g.black p) = true then
      (if g.gcstate = .GCSpropagate then reallymarkobject o (g.setHeap hp) else (g.setHeap hp).whiten p)
    else g.setHeap hp) = _
  rw [luaCObjbarrier, luaCBarrierf, hmark]
  split_ifs <;> rfl

theorem luaCObjbarriert_setHeap (t : Nat) :
    luaCObjbarriert t o (g.setHeap hp) = (luaCObjbarriert t o g).setHeap hp := by
  change (if (g.white o && g.black (.table t)) = true then luaCBarrierback t (g.setHeap hp) else g.setHeap hp) = _
  rw [luaCObjbarriert]
  split_ifs <;> rfl

theorem luaCBarriert_setHeap (t : Nat) (v : TValue) :
    luaCBarriert t v (g.setHeap hp) = (luaCBarriert t v g).setHeap hp := by
  rw [luaCBarriert, luaCBarriert]
  cases v.gcvalue with
  | none => rfl
  | some o => exact luaCObjbarriert_setHeap t

theorem marktable_setHeap (t : Nat) : marktable t (g.setHeap hp) = (marktable t g).setHeap hp := by
  change (if g.white (.table t) = true then markgray (.table t) (g.setHeap hp) else g.setHeap hp) = _
  rw [marktable]
  split_ifs <;> rfl

theorem markmetatable_setHeap (mt : Option Nat) :
    markmetatable mt (g.setHeap hp) = (markmetatable mt g).setHeap hp := by
  cases mt with
  | none => rfl
  | some t => exact marktable_setHeap t

theorem markplain_setHeap (hudata : hp.udata = g.heap.udata) :
    markplain (g.setHeap hp) o = (markplain g o).setHeap hp := by
  cases o with
  | userdata u =>
    change marktable (hp.udata u).env (markmetatable (hp.udata u).metatable
      ((g.mark (.userdata u) fun m => gray2black (white2gray m)).setHeap hp)) = _
    rw [hudata, markmetatable_setHeap, marktable_setHeap]
    rfl
  | string ts => rfl
  | upval uv => rfl
  | function cl => rfl
  | table t => rfl
  | thread th => rfl
  | proto q => rfl

theorem markvalue_setHeap (v : TValue) (hudata : hp.udata = g.heap.udata) :
    markvalue v (g.setHeap hp) = (markvalue v g).setHeap hp := by
  rw [markvalue, markvalue]
  cases v.gcvalue with
  | none => rfl
  | some o =>
    change (if g.white o = true then markplain (g.setHeap hp) o else g.setHeap hp) = _
    rw [markplain_setHeap hudata]
    simp only
    split_ifs <;> rfl

theorem reallymarkobject_setHeap (hudata : hp.udata = g.heap.udata)
    (hupval : ∀ uv, o = .upval uv → hp.upval uv = g.heap.upval uv ∧ hp.upvalue uv = g.heap.upvalue uv) :
    reallymarkobject o (g.setHeap hp) = (reallymarkobject o g).setHeap hp := by
  by_cases hkind : ∀ uv, o ≠ .upval uv
  · rw [markplain_eq hkind, markplain_eq hkind, markplain_setHeap hudata]
  · obtain ⟨uv, rfl⟩ := not_forall_not.mp hkind
    obtain ⟨hup, hvalue⟩ := hupval uv rfl
    have hvalueg : markvalue (hp.upvalue uv) ((g.setHeap hp).mark (.upval uv) white2gray) =
        (markvalue (g.heap.upvalue uv) (g.mark (.upval uv) white2gray)).setHeap hp := by
      rw [hvalue]
      exact markvalue_setHeap (g := g.mark (.upval uv) white2gray) _ hudata
    have hkeep : (markvalue (g.heap.upvalue uv) (g.mark (.upval uv) white2gray)).heap = g.heap :=
      (marks_value (A := fun _ => True) (fun _ _ _ _ => trivial) fun _ _ => trivial).1.heap
    simp only [reallymarkobject]
    rw [show (g.setHeap hp).heap.upvalue uv = hp.upvalue uv from rfl, hvalueg, hkeep]
    rw [show ((markvalue (g.heap.upvalue uv) (g.mark (.upval uv) white2gray)).setHeap hp).heap.upval uv =
      hp.upval uv from rfl, hup]
    cases g.heap.upval uv <;> rfl

theorem luaCBarrier_setHeap (v : TValue) (hudata : hp.udata = g.heap.udata) :
    luaCBarrier p v (g.setHeap hp) = (luaCBarrier p v g).setHeap hp := by
  rw [luaCBarrier, luaCBarrier]
  cases hv : v.gcvalue with
  | none => rfl
  | some o => exact luaCObjbarrier_setHeap (reallymarkobject_setHeap hudata fun uv huv =>
      absurd huv (gcvalue_ne_upval hv uv))

end Barriers

section Stores

variable {g : State} {o p c : GCObject} {v : TValue}

/-- A table gets other contents: what is new in them is behind its barrier. -/
theorem Barred.storeTable {g' : State} {t : Nat} {x : Table} {l : List GCObject} (h : Barred (.table t) l g g')
    (hl : ∀ c ∈ l, Alive g c)
    (hrefs : ∀ c ∈ x.refs false false, c ∈ (g.heap.table t).refs false false ∨ c ∈ l) :
    Inv (g'.setHeap (g.heap.setTable t x)) := by
  refine h.store (fun _ _ _ => Iff.rfl) (fun _ => rfl) fun o _ c hc => ?_
  cases o with
  | table t' =>
    by_cases heq : t' = t
    · subst heq
      rw [refs, Heap.table_self] at hc
      rcases hrefs c hc with hold | hnew
      · exact .inl hold
      · exact .inr ⟨(hl c hnew).1, (hl c hnew).2, .inl ⟨rfl, hnew⟩⟩
    · rw [refs, Heap.table_other _ _ heq] at hc
      exact .inl hc
  | string ts => exact .inl hc
  | userdata u => exact .inl hc
  | upval uv => exact .inl hc
  | function cl => exact .inl hc
  | thread th => exact .inl hc
  | proto q => exact .inl hc

theorem Inv.settable {t : Nat} {newkey : Option TValue} {array : List TValue} {node : List Node} (h : Inv g)
    (ht : .table t ∈ g.objects) (hv : ∀ c ∈ gcvalues (v :: newkey.toList), Alive g c)
    (hrefs : ∀ c ∈ Table.refs false false ⟨none, array, node⟩,
      c ∈ (g.heap.table t).refs false false ∨ c ∈ gcvalues (v :: newkey.toList)) :
    Inv (settable t newkey v array node g) := by
  have hsub : ∀ c, c ∈ gcvalues [newkey.getD .nil] ++ gcvalues [v] ↔ c ∈ gcvalues (v :: newkey.toList) := by
    intro c
    cases newkey with
    | none => simp [gcvalues, TValue.gcvalue]
    | some k =>
      simp only [List.mem_append, mem_gcvalues, Option.getD_some, Option.toList_some, List.mem_cons, List.not_mem_nil,
        or_false, exists_eq_left, exists_eq_or_imp]
      exact or_comm
  have hkey := luaCBarriert_barred (v := newkey.getD .nil) h ht
  have hboth := hkey.trans (luaCBarriert_barred (v := v) hkey.inv (hkey.objects.symm ▸ ht))
  have heq : Gc.settable t newkey v array node g = (luaCBarriert t v (luaCBarriert t (newkey.getD .nil) g)).setHeap
      (g.heap.setTable t { g.heap.table t with array := array, node := node }) := by
    rw [Gc.settable, luaCBarriert_setHeap, luaCBarriert_setHeap]
  rw [heq]
  refine hboth.storeTable (fun c hc => hv c ((hsub c).mp hc)) fun c hc => ?_
  rcases Table.mem_refs.mp hc with ⟨mt, hmt, rfl⟩ | hrest
  · exact .inl (Table.mem_refs.mpr (.inl ⟨mt, hmt, rfl⟩))
  · exact (hrefs c (Table.mem_refs.mpr (.inr hrest))).imp_right (hsub c).mpr

theorem Inv.setmetatable {t : Nat} {mt : Option Nat} (h : Inv g) (ht : .table t ∈ g.objects)
    (hmt : ∀ m ∈ mt, Alive g (.table m)) : Inv (setmetatable t mt g) := by
  have hrest : ∀ {x : Table}, x.metatable = mt → x.array = (g.heap.table t).array → x.node = (g.heap.table t).node →
      ∀ c ∈ x.refs false false, c ∈ (g.heap.table t).refs false false ∨ c ∈ mt.toList.map GCObject.table := by
    intro x hm ha hn c hc
    rw [Table.mem_refs, hm, ha, hn] at hc
    rcases hc with ⟨m, rfl, rfl⟩ | hrest
    · exact .inr (List.mem_singleton_self _)
    · exact .inl (Table.mem_refs.mpr (.inr hrest))
  cases mt with
  | none =>
    have hnone : Barred (.table t) [] g g := h.unbarred fun _ _ hc => (List.not_mem_nil hc).elim
    exact hnone.storeTable (fun _ hc => (List.not_mem_nil hc).elim) (hrest rfl rfl rfl)
  | some m =>
    have hb := luaCObjbarriert_barred (o := .table m) h ht
    have heq : Gc.setmetatable t (some m) g =
        (luaCObjbarriert t (.table m) g).setHeap (g.heap.setTable t { g.heap.table t with metatable := some m }) :=
      luaCObjbarriert_setHeap t
    rw [heq]
    refine hb.storeTable (fun c hc => ?_) (hrest rfl rfl rfl)
    rw [List.mem_singleton.mp hc]
    exact hmt m rfl

/-- Userdata gets another metatable or environment. -/
theorem Barred.storeUdata {g' : State} {u : Nat} {x : Udata} {l : List GCObject} (h : Barred (.userdata u) l g g')
    (hl : ∀ c ∈ l, Alive g c) (hrefs : ∀ c ∈ x.refs, c ∈ (g.heap.udata u).refs ∨ c ∈ l) :
    Inv (g'.setHeap (g.heap.setUdata u x)) := by
  refine h.store (fun _ _ _ => Iff.rfl) (fun _ => rfl) fun o _ c hc => ?_
  cases o with
  | userdata u' =>
    by_cases heq : u' = u
    · subst heq
      rw [refs, Heap.udata_self] at hc
      rcases hrefs c hc with hold | hnew
      · exact .inl hold
      · exact .inr ⟨(hl c hnew).1, (hl c hnew).2, .inl ⟨rfl, hnew⟩⟩
    · rw [refs, Heap.udata_other _ _ heq] at hc
      exact .inl hc
  | string ts => exact .inl hc
  | table t => exact .inl hc
  | upval uv => exact .inl hc
  | function cl => exact .inl hc
  | thread th => exact .inl hc
  | proto q => exact .inl hc

theorem Inv.setudatametatable {u : Nat} {mt : Option Nat} (h : Inv g) (hu : .userdata u ∈ g.objects)
    (hmt : ∀ m ∈ mt, Alive g (.table m)) : Inv (setudatametatable u mt g) := by
  cases mt with
  | none =>
    have hnone : Barred (.userdata u) [] g g := h.unbarred fun _ _ hc => (List.not_mem_nil hc).elim
    refine hnone.storeUdata (fun _ hc => (List.not_mem_nil hc).elim) fun c hc => .inl ?_
    exact List.mem_append_right _ hc
  | some m =>
    have hb := luaCObjbarrier_barred (o := .table m) h hu (hmt m rfl).1
    have heq : Gc.setudatametatable u (some m) g = (luaCObjbarrier (.userdata u) (.table m) g).setHeap
        (g.heap.setUdata u { g.heap.udata u with metatable := some m }) := luaCObjbarrier_setHeap rfl
    rw [heq]
    refine hb.storeUdata (fun c hc => ?_) fun c hc => ?_
    · rw [List.mem_singleton.mp hc]
      exact hmt m rfl
    · rcases List.mem_append.mp hc with hc | hc
      · exact .inr hc
      · exact .inl (List.mem_append_right _ hc)

/-- A function gets other references. -/
theorem Barred.storeClosure {g' : State} {cl : Nat} {x : Closure} {l : List GCObject} (h : Barred (.function cl) l g g')
    (hl : ∀ c ∈ l, Alive g c) (hrefs : ∀ c ∈ x.refs, c ∈ (g.heap.closure cl).refs ∨ c ∈ l) :
    Inv (g'.setHeap (g.heap.setClosure cl x)) := by
  refine h.store (fun _ _ _ => Iff.rfl) (fun _ => rfl) fun o _ c hc => ?_
  cases o with
  | function cl' =>
    by_cases heq : cl' = cl
    · subst heq
      rw [refs, Heap.closure_self] at hc
      rcases hrefs c hc with hold | hnew
      · exact .inl hold
      · exact .inr ⟨(hl c hnew).1, (hl c hnew).2, .inl ⟨rfl, hnew⟩⟩
    · rw [refs, Heap.closure_other _ _ heq] at hc
      exact .inl hc
  | string ts => exact .inl hc
  | table t => exact .inl hc
  | upval uv => exact .inl hc
  | userdata u => exact .inl hc
  | thread th => exact .inl hc
  | proto q => exact .inl hc

/-- A prototype gets another part. -/
theorem Inv.setproto {q : Nat} {x : Proto} (h : Inv g) (hq : .proto q ∈ g.objects) (ho : Alive g o)
    (hrefs : ∀ c ∈ x.refs, c ∈ (g.heap.proto q).refs ∨ c = o) : Inv (setproto q x o g) := by
  have hb := luaCObjbarrier_barred (o := o) h hq ho.1
  have heq : Gc.setproto q x o g = (luaCObjbarrier (.proto q) o g).setHeap (g.heap.setProto q x) :=
    luaCObjbarrier_setHeap (reallymarkobject_setHeap rfl fun uv _ => ⟨rfl, rfl⟩)
  rw [heq]
  refine hb.store (fun _ _ _ => Iff.rfl) (fun _ => rfl) fun o' _ c hc => ?_
  cases o' with
  | proto q' =>
    by_cases hne : q' = q
    · subst hne
      rw [refs, Heap.proto_self] at hc
      rcases hrefs c hc with hold | rfl
      · exact .inl hold
      · exact .inr ⟨ho.1, ho.2, .inl ⟨rfl, List.mem_singleton_self c⟩⟩
    · rw [refs, Heap.proto_other _ _ hne] at hc
      exact .inl hc
  | string ts => exact .inl hc
  | table t => exact .inl hc
  | upval uv => exact .inl hc
  | userdata u => exact .inl hc
  | thread th => exact .inl hc
  | function cl => exact .inl hc

/-- An environment is set. -/
theorem Inv.setfenv {env : Nat} (h : Inv g) (ho : o ∈ g.objects) (henv : Alive g (.table env)) :
    Inv (luaSetfenv o env g) := by
  have hb := luaCObjbarrier_barred (o := .table env) h ho henv.1
  have hl : ∀ c ∈ [GCObject.table env], Alive g c := fun c hc => by
    rw [List.mem_singleton.mp hc]
    exact henv
  have hcommute : ∀ hp, luaCObjbarrier o (.table env) (g.setHeap hp) =
      (luaCObjbarrier o (.table env) g).setHeap hp := fun hp => luaCObjbarrier_setHeap rfl
  cases o with
  | function cl =>
    rw [luaSetfenv, hcommute]
    cases hcl : g.heap.closure cl with
    | c env' upvalue =>
      refine hb.storeClosure hl fun c hc => ?_
      rw [hcl]
      rcases List.mem_cons.mp hc with rfl | hc
      · exact .inr (List.mem_singleton_self _)
      · exact .inl (List.mem_cons_of_mem _ hc)
    | l env' q upvals =>
      refine hb.storeClosure hl fun c hc => ?_
      rw [hcl]
      rcases List.mem_cons.mp hc with rfl | hc
      · exact .inr (List.mem_singleton_self _)
      · exact .inl (List.mem_cons_of_mem _ hc)
  | userdata u =>
    rw [luaSetfenv, hcommute]
    refine hb.storeUdata hl fun c hc => ?_
    rcases List.mem_append.mp hc with hc | hc
    · exact .inl (List.mem_append_left _ hc)
    · exact .inr hc
  | thread th =>
    rw [luaSetfenv, hcommute]
    have hheap := hb.heap
    have halive := hb.alive _ henv.1 henv.2
    have hin := hb.objects.symm ▸ henv.1
    generalize luaCObjbarrier (.thread th) (.table env) g = g' at hb hheap halive hin
    rw [← hheap]
    refine hb.inv.storeThread rfl (.inr fun c hc => ?_) fun i => .inl ⟨rfl, id⟩
    rw [List.mem_singleton.mp (show c ∈ [GCObject.table env] from hc)]
    exact ⟨hin, halive⟩
  | string ts => exact hb.inv
  | upval uv => exact hb.inv
  | table t => exact hb.inv
  | proto q => exact hb.inv

/-- The value of an upvalue is set. An open one is never black. -/
theorem Inv.setvalue {uv : Nat} (h : Inv g) (hv : ∀ c ∈ gcvalues [v], Alive g c)
    (hshield : g.gcstate = .GCSpropagate → g.black (.upval uv) = true → NonWhite g (gcvalues [v])) :
    Inv (g.setHeap (Gc.setvalue uv v g.heap)) := by
  rw [Gc.setvalue]
  cases huv : g.heap.upval uv with
  | opened th level =>
    refine h.storeThread rfl (.inl rfl) fun i => ?_
    by_cases hi : i = level
    · subst hi
      simp only [Function.update_self]
      exact .inr hv
    · simp only [Function.update_of_ne hi]
      exact .inl ⟨trivial, id⟩
  | closed w =>
    refine h.store (fun uv' th level => ?_) (fun _ => rfl) fun o _ _ c hc => ?_
    · by_cases heq : uv' = uv
      · subst heq
        rw [Heap.upval_self, huv]
        exact ⟨(by simp), (by simp)⟩
      · rw [Heap.upval_other _ _ heq]
    · cases o with
      | upval uv' =>
        rw [refs, Heap.upvalue] at hc ⊢
        by_cases heq : uv' = uv
        · subst heq
          rw [Heap.upval_self] at hc
          exact .inr ⟨(hv c hc).1, (hv c hc).2, fun hs hb => hshield hs hb c hc⟩
        · rw [Heap.upval_other _ _ heq] at hc
          exact .inl hc
      | string ts => exact .inl hc
      | table t => exact .inl hc
      | function cl => exact .inl hc
      | userdata u => exact .inl hc
      | thread th => exact .inl hc
      | proto q => exact .inl hc

theorem Inv.opSetupval {uv : Nat} (h : Inv g) (huv : .upval uv ∈ g.objects) (hv : ∀ c ∈ gcvalues [v], Alive g c) :
    Inv (opSetupval uv v g) := by
  have hb := luaCBarrier_barred (v := v) h huv fun c hc => (hv c hc).1
  have hudata : (Gc.setvalue uv v g.heap).udata = g.heap.udata := by
    rw [Gc.setvalue]
    cases g.heap.upval uv <;> rfl
  rw [Gc.opSetupval, luaCBarrier_setHeap v hudata, ← hb.heap]
  exact hb.inv.setvalue (fun c hc => ⟨hb.objects.symm ▸ (hv c hc).1, hb.alive c (hv c hc).1 (hv c hc).2⟩)
    fun hs hblack => hb.shield (hb.gcstate.symm.trans hs) hblack

/-- In the mark phase nothing white is put under a black object. -/
theorem luaCBarrier_shields (h : Inv g) (hs : g.gcstate = .GCSpropagate) (hb : g.black p = true)
    (hv : ∀ c ∈ gcvalues [v], c ∈ g.objects) : NonWhite (luaCBarrier p v g) (gcvalues [v]) := by
  intro c hc
  obtain ⟨w, hw, hval⟩ := mem_gcvalues.mp hc
  rw [List.mem_singleton.mp hw] at hval
  have hcin := hv c hc
  rw [luaCBarrier, hval]
  simp only [luaCObjbarrier, luaCBarrierf, hb, Bool.and_true, hs, if_true]
  split_ifs with hwhite
  · have hmarks := marks_object (g := g) (h.marks hs).phase.closed hcin
    rw [markobject, if_pos hwhite] at hmarks
    exact hmarks.2 c (List.mem_singleton_self c)
  · exact eq_false_of_ne_true hwhite

/-- Where the collector's own assumptions hold. `lua_setupvalue` has its barrier at the function. For a Lua
function this is not the object that it sets: the upvalue must not be black, where the function is not, and the
value is white. And `lua_close` may call finalizers in the mark phase, where userdata that becomes white again may
be in black objects. -/
def Shielded (g : State) : Action → Prop
  | .callGCTM => g.gcstate ≠ .GCSpropagate
  | .setupvalue cl n v => g.gcstate = .GCSpropagate → g.black (.function cl) = false →
      ∀ env p upvals uv, g.heap.closure cl = .l env p upvals → upvals[n]? = some uv →
        g.black (.upval uv) = true → NonWhite g (gcvalues [v])
  | _ => True

theorem Inv.setupvalue {cl n : Nat} (h : Inv g) (hcl : .function cl ∈ g.objects)
    (hv : ∀ c ∈ gcvalues [v], Alive g c) (hshield : Shielded g (.setupvalue cl n v)) :
    Inv (luaSetupvalue cl n v g) := by
  have hb := luaCBarrier_barred (v := v) h hcl fun c hc => (hv c hc).1
  rw [luaSetupvalue]
  cases hc : g.heap.closure cl with
  | c env upvalue =>
    have hcommute : luaCBarrier (.function cl) v (g.setHeap (g.heap.setClosure cl (.c env (upvalue.set n v)))) = _ :=
      luaCBarrier_setHeap v rfl
    simp only
    rw [hcommute]
    refine hb.storeClosure hv fun c hin => ?_
    rw [hc]
    rcases List.mem_cons.mp hin with rfl | hin
    · exact .inl List.mem_cons_self
    · obtain ⟨w, hw, hval⟩ := mem_gcvalues.mp hin
      rcases List.mem_or_eq_of_mem_set hw with hw | rfl
      · exact .inl (List.mem_cons_of_mem _ (mem_gcvalues.mpr ⟨w, hw, hval⟩))
      · exact .inr (mem_gcvalues.mpr ⟨w, List.mem_singleton_self w, hval⟩)
  | l env q upvals =>
    cases hup : upvals[n]? with
    | none =>
      simp only [hup]
      exact hb.inv
    | some uv =>
      simp only [hup]
      have hudata : (Gc.setvalue uv v g.heap).udata = g.heap.udata := by
        rw [Gc.setvalue]
        cases g.heap.upval uv <;> rfl
      rw [luaCBarrier_setHeap v hudata, ← hb.heap]
      refine hb.inv.setvalue (fun c hc => ⟨hb.objects.symm ▸ (hv c hc).1, hb.alive c (hv c hc).1 (hv c hc).2⟩)
        fun hs hblack => ?_
      have hs0 := hb.gcstate.symm.trans hs
      cases hfn : g.black (.function cl) with
      | true => exact luaCBarrier_shields h hs0 hfn fun c hc => (hv c hc).1
      | false =>
        have hsame : luaCBarrier (.function cl) v g = g := by
          rw [luaCBarrier]
          cases v.gcvalue with
          | none => rfl
          | some o => simp [luaCObjbarrier, hfn]
        rw [hsame] at hblack ⊢
        exact hshield hs0 hfn env q upvals uv hc hup hblack

/-- Other roots. -/
theorem Inv.others (h : Inv g) (running : Nat) (mt : List (Option Nat)) (closing : Bool)
    (hroots : ∀ o ∈ State.roots { g with running := running, mt := mt, closing := closing }, Alive g o) :
    Inv { g with running := running, mt := mt, closing := closing } := by
  refine ⟨⟨h.lists.nodup, h.lists.rootgc, h.lists.uvhead, h.lists.openupval, h.lists.opened, h.lists.onewhite,
    h.lists.fixed, h.lists.tmudata⟩, h.colour, h.live, hroots, h.finalized, h.resting, fun hs => ?_, h.sweepstring, fun hs => ?_⟩
  · obtain ⟨halive, hp, hmain, hregistry⟩ := h.marks hs
    exact ⟨halive, ⟨hp.closed, hp.black, hp.settled, hp.notblack, hp.exempt, hp.listed, hp.nodup, hp.remarked, hp.weak,
      hp.again, hp.tmudata⟩, hmain, hregistry⟩
  · obtain ⟨hstrings, hcursor, hfresh, hupvals⟩ := h.sweeps hs
    exact ⟨hstrings, hcursor, hfresh, hupvals⟩

end Stores

end UgmeeLua.Gc

import UgmeeLua.Lgc.Atomic

namespace UgmeeLua.Gc

/-! ## The invariant of program and collector -/

/-- An object with the marks of a new one. -/
def Fresh (g : State) (o : GCObject) : Prop := isfresh g.currentwhite (g.marked o)

/-- An object that is white from the cycle before: it is being swept. -/
def Dead (g : State) (o : GCObject) : Prop := isfresh (otherwhite g.currentwhite) (g.marked o)

/-- What can be in the list of `rootgc`: no upvalue there is open. -/
def Listed (hp : Heap) : GCObject → Prop
  | .string _ => False
  | .userdata _ => False
  | .upval uv => ∃ v, hp.upval uv = .closed v
  | _ => True

/-- The lists of objects. An open upvalue is in the list of its thread, and in `uvhead`. -/
structure Lists (g : State) : Prop where
  nodup : g.objects.Nodup
  rootgc : ∀ o ∈ g.rootgc, Listed g.heap o
  uvhead : ∀ uv ∈ g.uvhead, ∃ th level, g.heap.upval uv = .opened th level ∧ .thread th ∈ g.objects ∧
    uv ∈ (g.heap.thread th).openupval
  openupval : ∀ th, .thread th ∈ g.objects → (g.heap.thread th).openupval.Nodup ∧
    ∀ uv ∈ (g.heap.thread th).openupval, uv ∈ g.uvhead ∧ ∃ level, g.heap.upval uv = .opened th level
  opened : ∀ uv ∈ g.uvhead, g.black (.upval uv) = false
  onewhite : OneWhite g.currentwhite
  fixed : ∀ o ∈ g.objects, testbit (g.marked o) FIXEDBIT = true → (∃ ts, o = .string ts) ∨ o = .thread g.mainthread
  tmudata : ∀ u ∈ g.tmudata, isfinalized (g.marked (.userdata u)) = true

/-- What the sweep of the list of all objects has still to come to. -/
def State.unswept (g : State) : List GCObject :=
  match g.sweepgc with
  | none => g.mainlist
  | some o => if o ∈ g.mainlist then following o g.mainlist else g.udata.map .userdata

/-- The mark phase. -/
structure Marks (g : State) : Prop where
  alive : ∀ o ∈ g.objects, ¬ Dead g o
  phase : Phase 0 Nowhere g
  main : g.white (.thread g.mainthread) = false
  registry : NonWhite g (gcvalues [g.registry])

/-- The sweep of the list of all objects, behind that of the strings. -/
structure Sweeps (g : State) : Prop where
  strings : ∀ ts ∈ g.strt.flatten, Fresh g (.string ts)
  cursor : ∀ o, g.sweepgc = some o → o ∈ g.mainlist ∨ Pending g o
  fresh : ∀ o ∈ g.mainlist, o ∉ g.unswept → Fresh g o
  upvals : ∀ uv ∈ g.uvhead, ∀ th level, g.heap.upval uv = .opened th level → .thread th ∉ g.unswept →
    Fresh g (.upval uv)

/-- An object that is not freed, and will not be before the next mark phase. -/
def Alive (g : State) (o : GCObject) : Prop := o ∈ g.objects ∧ ¬ Dead g o

/-- What holds in every state of the collector. A living object refers to living ones, weakly too. -/
structure Inv (g : State) : Prop where
  lists : Lists g
  colour : ∀ o ∈ g.objects, Fresh g o ∨ Dead g o ∨ g.white o = false
  live : ∀ o ∈ g.objects, ¬ Dead g o → ∀ c ∈ refs g.heap o, c ∈ g.objects ∧ ¬ Dead g c
  roots : ∀ o ∈ g.roots, o ∈ g.objects ∧ ¬ Dead g o
  finalized : ∀ u ∈ g.udata, Dead g (.userdata u) → isfinalized (g.marked (.userdata u)) = true
  resting : g.gcstate = .GCSpause ∨ g.gcstate = .GCSfinalize → ∀ o ∈ g.objects, Fresh g o ∨ Pending g o
  marks : g.gcstate = .GCSpropagate → Marks g
  sweepstring : g.gcstate = .GCSsweepstring →
    g.sweepgc = none ∧ ∀ i < g.sweepstrgc, ∀ ts ∈ g.strt.getD i [], Fresh g (.string ts)
  sweeps : g.gcstate = .GCSsweep → Sweeps g

section Inv

variable {g : State} {o c : GCObject}

/-- What can be reached is there, and is not swept. -/
theorem Inv.accessible (h : Inv g) (ho : Accessible g o) : Alive g o :=
  Run.Reach.inv (Alive g) h.roots
    (fun o c hin hc => h.live o hin.1 hin.2 c hc) ho

theorem Inv.accessible_value (h : Inv g) {v : TValue} (hv : AccessibleValue g v) :
    ∀ o ∈ gcvalues [v], Alive g o := by
  intro o ho
  obtain ⟨w, hw, hval⟩ := mem_gcvalues.mp ho
  rw [List.mem_singleton.mp hw] at hval
  exact h.accessible (hv o hval)

theorem Fresh.not_dead (hf : Fresh g o) (h : OneWhite g.currentwhite) : ¬ Dead g o := hf.not_other h

theorem Dead.white (hd : Dead g o) (h : OneWhite g.currentwhite) : g.white o = true := isfresh.white hd h.otherwhite

theorem Dead.notblack (hd : Dead g o) (h : OneWhite g.currentwhite) : g.black o = false :=
  isfresh.notblack hd h.otherwhite

theorem Fresh.white (hf : Fresh g o) (h : OneWhite g.currentwhite) : g.white o = true := isfresh.white hf h

theorem Fresh.notblack (hf : Fresh g o) (h : OneWhite g.currentwhite) : g.black o = false := isfresh.notblack hf h

theorem not_dead_of_not_white (hn : g.white o = false) (h : OneWhite g.currentwhite) : ¬ Dead g o := fun hd => by
  rw [hd.white h] at hn
  cases hn

theorem Inv.onewhite (h : Inv g) : OneWhite g.currentwhite := h.lists.onewhite

/-- `isdead` in the words of the invariant. -/
theorem Inv.isdead_iff (h : Inv g) (ho : o ∈ g.objects) : isdead g.currentwhite (g.marked o) = true ↔ Dead g o := by
  have hw := h.onewhite
  constructor
  · intro hd
    rcases h.colour o ho with hf | hdead | hn
    · rw [isfresh.alive hf hw] at hd
      cases hd
    · exact hdead
    · rw [isdead_of_not_white hn] at hd
      cases hd
  · intro hd
    have hdead := isfresh.dead hd hw.otherwhite
    rwa [hw.otherwhite_otherwhite] at hdead

theorem Inv.survives_of_alive (h : Inv g) (ho : o ∈ g.objects) (hd : ¬ Dead g o) : g.survives o = true :=
  h.onewhite.survives_of_alive (eq_false_of_ne_true fun hdead => hd ((h.isdead_iff ho).mp hdead))

/-- A living object that is white is new. -/
theorem Inv.fresh_of_white (h : Inv g) (ho : o ∈ g.objects) (hd : ¬ Dead g o) (hw : g.white o = true) : Fresh g o := by
  rcases h.colour o ho with hf | hdead | hn
  · exact hf
  · exact absurd hdead hd
  · rw [hw] at hn
    cases hn

/-- A black object is not white. -/
theorem Inv.not_white_of_black (h : Inv g) (ho : o ∈ g.objects) (hb : g.black o = true) : g.white o = false := by
  rcases h.colour o ho with hf | hd | hn
  · rw [hf.notblack h.onewhite] at hb
    cases hb
  · rw [hd.notblack h.onewhite] at hb
    cases hb
  · exact hn

end Inv

end UgmeeLua.Gc

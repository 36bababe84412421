import UgmeeLua.Lgc.Upvalues

namespace UgmeeLua.Gc

/-! ## Objects that are freed -/

section Freed

variable {g g' g'' : State} {o c : GCObject}

/-- Dead objects leave their lists. -/
structure Freed (g g' : State) : Prop where
  same : g' = { g with heap := g'.heap, rootgc := g'.rootgc, udata := g'.udata, strt := g'.strt, uvhead := g'.uvhead }
  refs : ∀ x, refs g'.heap x = refs g.heap x
  upval : g'.heap.upval = g.heap.upval
  nodup : g'.objects.Nodup
  sub : ∀ x ∈ g'.objects, x ∈ g.objects
  alive : ∀ x, Alive g x → x ∈ g'.objects
  rootgc : ∀ x ∈ g'.rootgc, x ∈ g.rootgc
  udata : ∀ u ∈ g'.udata, u ∈ g.udata
  uvhead : ∀ uv ∈ g'.uvhead, uv ∈ g.uvhead ∧ ∀ th level, g.heap.upval uv = .opened th level →
    .thread th ∈ g'.objects ∧ uv ∈ (g'.heap.thread th).openupval
  openupval : ∀ th, .thread th ∈ g'.objects → (g'.heap.thread th).openupval.Nodup ∧
    ∀ uv ∈ (g'.heap.thread th).openupval, uv ∈ (g.heap.thread th).openupval ∧ uv ∈ g'.uvhead
  strings : ∀ i, ∀ ts ∈ g'.strt.getD i [], ts ∈ g.strt.getD i []
  cursor : ∀ x, g.sweepgc = some x → x ∈ g.mainlist → x ∈ g'.mainlist
  unswept : ∀ x ∈ g'.mainlist, x ∈ g.unswept → x ∈ g'.unswept

section

variable (h : Freed g g')

include h

theorem Freed.dead_iff : Dead g' c ↔ Dead g c := by
  rw [h.same]
  rfl

theorem Freed.fresh_iff : Fresh g' c ↔ Fresh g c := by
  rw [h.same]
  rfl

theorem Freed.keeps_alive (hc : Alive g c) : Alive g' c := ⟨h.alive c hc, fun hd => hc.2 (h.dead_iff.mp hd)⟩

theorem Freed.mainlist (hc : c ∈ g'.mainlist) : c ∈ g.mainlist := by
  have hmain : g'.mainthread = g.mainthread := by rw [h.same]
  rw [State.mainlist, hmain] at hc
  rcases List.mem_append.mp hc with hc | hc
  · exact List.mem_append_left _ (h.rootgc c hc)
  · refine List.mem_append_right _ ?_
    rcases List.mem_cons.mp hc with rfl | hc
    · exact List.mem_cons_self
    · obtain ⟨u, hu, rfl⟩ := List.mem_map.mp hc
      exact List.mem_cons_of_mem _ (List.mem_map_of_mem (h.udata u hu))

theorem Freed.lists (hl : Lists g) : Lists g' := by
  have hmarked : g'.marked = g.marked := by rw [h.same]
  refine ⟨h.nodup, fun x hx => ?_, fun uv huv => ?_, fun th hth => ?_, fun uv huv => ?_, ?_, fun x hx hfix => ?_, ?_⟩
  · have hold := hl.rootgc x (h.rootgc x hx)
    cases x with
    | upval uv =>
      rw [Listed, h.upval]
      exact hold
    | string ts => exact hold
    | userdata u => exact hold
    | function cl => trivial
    | table t => trivial
    | thread th => trivial
    | proto q => trivial
  · obtain ⟨hold, hall⟩ := h.uvhead uv huv
    obtain ⟨th, level, hopen, -⟩ := hl.uvhead uv hold
    rw [h.upval]
    exact ⟨th, level, hopen, hall th level hopen⟩
  · obtain ⟨hnodup, hall⟩ := h.openupval th hth
    rw [h.upval]
    exact ⟨hnodup, fun uv huv => ⟨(hall uv huv).2, ((hl.openupval th (h.sub _ hth)).2 uv (hall uv huv).1).2⟩⟩
  · rw [State.black, hmarked]
    exact hl.opened uv (h.uvhead uv huv).1
  · rw [h.same]
    exact hl.onewhite
  · have hmain : g'.mainthread = g.mainthread := by rw [h.same]
    rw [hmain]
    rw [hmarked] at hfix
    exact hl.fixed x (h.sub x hx) hfix
  · rw [h.same]
    exact hl.tmudata

theorem Freed.inv (hi : Inv g) (hs : g.gcstate ≠ .GCSpropagate) : Inv g' := by
  have hstate : g'.gcstate = g.gcstate := by rw [h.same]
  have hmarked : g'.marked = g.marked := by rw [h.same]
  refine ⟨h.lists hi.lists, fun x hx => ?_, fun x hx hd c hc => ?_, fun x hx => ?_, fun u hu hd => ?_,
    fun hs' x hx => ?_, fun hs' => absurd (hstate.symm.trans hs') hs, fun hs' => ?_, fun hs' => ?_⟩
  · rw [h.fresh_iff, h.dead_iff, State.white, hmarked]
    exact hi.colour x (h.sub x hx)
  · rw [h.refs] at hc
    exact h.keeps_alive (hi.live x (h.sub x hx) (fun hd' => hd (h.dead_iff.mpr hd')) c hc)
  · have hroots : g'.roots = g.roots := by
      rw [h.same]
      rfl
    rw [hroots] at hx
    exact h.keeps_alive (hi.roots x hx)
  · rw [hmarked]
    exact hi.finalized u (h.udata u hu) (h.dead_iff.mp hd)
  · have hold := hi.resting (hstate ▸ hs') x (h.sub x hx)
    rw [h.fresh_iff, Pending, h.same]
    exact hold
  · obtain ⟨hcursor, hall⟩ := hi.sweepstring (hstate ▸ hs')
    have hgc : g'.sweepgc = g.sweepgc := by rw [h.same]
    have hcount : g'.sweepstrgc = g.sweepstrgc := by rw [h.same]
    rw [hgc, hcount]
    exact ⟨hcursor, fun i hi' ts hts => h.fresh_iff.mpr (hall i hi' ts (h.strings i ts hts))⟩
  · have hsw := hi.sweeps (hstate ▸ hs')
    have hgc : g'.sweepgc = g.sweepgc := by rw [h.same]
    refine ⟨fun ts hts => h.fresh_iff.mpr (hsw.strings ts ?_), fun x hx => ?_, fun x hx hout => h.fresh_iff.mpr ?_,
      fun uv huv th level hup hout => h.fresh_iff.mpr ?_⟩
    · obtain ⟨l, hl, hts⟩ := List.mem_flatten.mp hts
      obtain ⟨i, hi'⟩ := List.getElem?_of_mem hl
      have hold := h.strings i ts (by rw [List.getD_eq_getElem?_getD, hi']; exact hts)
      rw [List.getD_eq_getElem?_getD] at hold
      cases hget : g.strt[i]? with
      | none =>
        rw [hget] at hold
        cases hold
      | some l' =>
        rw [hget] at hold
        exact List.mem_flatten_of_mem (List.mem_of_getElem? hget) hold
    · rw [hgc] at hx
      rcases hsw.cursor x hx with hin | hpend
      · exact .inl (h.cursor x hx hin)
      · refine .inr ?_
        rw [Pending, h.same]
        exact hpend
    · exact hsw.fresh x (h.mainlist hx) fun hun => hout (h.unswept x hx hun)
    · rw [h.upval] at hup
      obtain ⟨hold, hall⟩ := h.uvhead uv huv
      refine hsw.upvals uv hold th level hup fun hun => hout (h.unswept _ ?_ hun)
      have hthread := (hall th level hup).1
      rcases mem_objects_iff.mp hthread with hr | hr | ⟨ts, -, hr⟩ | ⟨uv', -, hr⟩ | ⟨u, -, hr⟩
      · exact List.mem_append_left _ hr
      · rw [hr]
        exact List.mem_append_right _ List.mem_cons_self
      · cases hr
      · cases hr
      · cases hr

end

end Freed

end UgmeeLua.Gc

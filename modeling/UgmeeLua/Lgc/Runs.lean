import UgmeeLua.Lgc.Cycle

namespace UgmeeLua.Gc

/-! ## Every step keeps the invariant -/

section Steps

variable {g g' : State} {o c : GCObject}

/-- A string of the string table lives again. -/
theorem findstr_inv {ts : Nat} (h : Inv g) (hin : .string ts ∈ g.objects) :
    Inv (pushes [.string ts] (resurrect (.string ts) g)) := by
  obtain ⟨h1, -, halive, -⟩ := resurrect_inv h hin (by simp) fun c hc => (List.not_mem_nil hc).elim
  refine h1.pushes fun c hc => ?_
  rw [List.mem_singleton.mp hc]
  exact halive

/-- A new object is pushed. -/
theorem Made.pushes {v : TValue} (hm : Made o g g') (hi : Inv g) (hv : v.gcvalue = some o) :
    Inv (Gc.pushes [v] g') := by
  refine (hm.inv hi).pushes fun c hc => ?_
  obtain ⟨w, hw, hval⟩ := mem_gcvalues.mp hc
  rw [List.mem_singleton.mp hw, hv] at hval
  cases hval
  exact ⟨hm.mem.mpr (.inl rfl), (hm.fresh hi.onewhite).not_dead (hm.inv hi).onewhite⟩

theorem fix_inv {ts : Nat} (h : Inv g) (hin : .string ts ∈ g.objects) :
    Inv (g.mark (.string ts) (· ||| bitmask FIXEDBIT)) := by
  have hkept : ∀ {k : BitVec 8}, bitmask FIXEDBIT &&& k = 0 →
      (g.marked (.string ts) ||| bitmask FIXEDBIT) &&& k = g.marked (.string ts) &&& k := fun hk => kept_or hk
  have hwhite : iswhite (g.marked (.string ts) ||| bitmask FIXEDBIT) = g.white (.string ts) := by
    rw [iswhite, hkept (by decide), State.white, iswhite]
  have hblack : isblack (g.marked (.string ts) ||| bitmask FIXEDBIT) = g.black (.string ts) := by
    rw [isblack, testbit, hkept (by decide), State.black, isblack, testbit]
  have hfresh : ∀ {w : BitVec 8}, isfresh w (g.marked (.string ts) ||| bitmask FIXEDBIT) ↔ isfresh w (g.marked (.string ts)) :=
    fun {w} => by rw [isfresh, hkept (by decide), isfresh]
  have hr : Remarked (.string ts) (g.marked (.string ts) ||| bitmask FIXEDBIT) g
      (g.mark (.string ts) (· ||| bitmask FIXEDBIT)) := by
    refine ⟨rfl, fun hf => hfresh.mpr hf, fun hd => hfresh.mp hd, ?_, fun hb => hblack ▸ hb, .inr ⟨ts, rfl⟩,
      fun _ hu => hu.elim fun _ heq => by cases heq⟩
    rcases h.colour _ hin with hf | hd | hn
    · exact .inl (hfresh.mpr hf)
    · exact .inr (.inl (hfresh.mpr hd))
    · exact .inr (.inr (hwhite.trans hn))
  refine h.remark hr (fun _ c hc => (List.not_mem_nil hc).elim) fun hs => ?_
  have hmarks := h.marks hs
  have hsame : (g.mark (.string ts) (· ||| bitmask FIXEDBIT)).white = g.white := white_mark_eq hwhite
  refine ⟨fun c hc hd => hmarks.alive c hc (hr.was_dead hd), ?_, ?_, ?_⟩
  · refine hmarks.phase.congr (by decide) rfl hsame (black_mark_eq hblack) (fun _ => Iff.rfl) rfl rfl rfl
      (fun _ hu => hu) fun t _ _ => ?_
    rw [keyweak, valueweak, marked_mark_other ((by simp) : GCObject.table t ≠ .string ts)]
    exact ⟨rfl, rfl⟩
  · exact (congrFun hsame _).trans hmarks.main
  · rw [NonWhite, hsame]
    exact hmarks.registry

/-- Strings are in the lists of other hashes. -/
theorem resize_inv {strt : List (List Nat)} (h : Inv g) (hs : g.gcstate ≠ .GCSsweepstring)
    (hperm : strt.flatten.Perm g.strt.flatten) : Inv { g with strt := strt } := by
  have hall : State.objects { g with strt := strt } |>.Perm g.objects :=
    List.Perm.append_left _ ((hperm.map _).append_right _)
  have hobjects : ∀ o, o ∈ State.objects { g with strt := strt } ↔ o ∈ g.objects := fun o => hall.mem_iff
  refine ⟨⟨hall.nodup_iff.mpr h.lists.nodup, h.lists.rootgc, fun uv huv => ?_, fun th hth =>
    h.lists.openupval th ((hobjects _).mp hth), h.lists.opened, h.lists.onewhite, fun o ho =>
    h.lists.fixed o ((hobjects o).mp ho), h.lists.tmudata⟩, fun o ho => h.colour o ((hobjects o).mp ho),
    fun o ho hd c hc => ?_, fun o ho => ?_, h.finalized, fun hs' o ho => h.resting hs' o ((hobjects o).mp ho),
    fun hs' => ?_, fun hs' => absurd hs' hs, fun hs' => ?_⟩
  · obtain ⟨th, level, hopen, hth, hmem⟩ := h.lists.uvhead uv huv
    exact ⟨th, level, hopen, (hobjects _).mpr hth, hmem⟩
  · obtain ⟨hin, hdc⟩ := h.live o ((hobjects o).mp ho) hd c hc
    exact ⟨(hobjects c).mpr hin, hdc⟩
  · exact ⟨(hobjects o).mpr (h.roots o ho).1, (h.roots o ho).2⟩
  · have hmarks := h.marks hs'
    exact ⟨fun o ho => hmarks.alive o ((hobjects o).mp ho), hmarks.phase.congr (by decide) rfl rfl rfl hobjects rfl rfl rfl
      (fun _ hu => hu) fun _ _ _ => ⟨rfl, rfl⟩, hmarks.main, hmarks.registry⟩
  · have hsw := h.sweeps hs'
    exact ⟨fun ts hts => hsw.strings ts (hperm.mem_iff.mp hts), hsw.cursor, hsw.fresh, hsw.upvals⟩

/-- What the program reaches, in the words of the invariant. -/
theorem Inv.table (h : Inv g) {mt : Option Nat} (hmt : ∀ t ∈ mt, Accessible g (.table t)) :
    ∀ t ∈ mt, Alive g (.table t) := fun t ht => h.accessible (hmt t ht)

theorem Capture.Allowed.fits {k : Capture} (hk : k.Allowed g) (h : Inv g) : k.Fits g := by
  cases k with
  | share uv => exact h.accessible hk
  | find level uv => exact hk
  | new uv => exact hk

/-- The metatable of a basic type changes. -/
theorem settypemetatable_inv {tt : Nat} {mt : Option Nat} (h : Inv g) (hmt : ∀ t ∈ mt, Alive g (.table t)) :
    Inv (settypemetatable tt mt g) := by
  refine h.others g.running (g.mt.set tt mt) g.closing fun o ho => ?_
  rcases State.mem_roots.mp ho with rfl | rfl | ho | ⟨t, ht, rfl⟩ | ⟨u, hu, rfl⟩
  · exact h.roots _ State.mainthread_mem_roots
  · exact h.running
  · exact h.roots o (State.registry_mem_roots ho)
  · rcases List.mem_or_eq_of_mem_set ht with hold | hnew
    · exact h.roots _ (State.metatable_mem_roots hold)
    · exact hmt t hnew.symm
  · exact h.roots _ (State.tmudata_mem_roots hu)

theorem closefirst_inv {th : Nat} (h : Inv g) (hth : .thread th ∈ g.objects) : Inv (perform (.closeupval th) g) := by
  rw [perform]
  cases hopen : (g.heap.thread th).openupval with
  | nil => exact h
  | cons uv l =>
    obtain ⟨-, hall⟩ := h.lists.openupval th hth
    obtain ⟨-, level, hup⟩ := hall uv (hopen ▸ List.mem_cons_self)
    have hfirst : First th uv level l g := ⟨hth, hopen, hup⟩
    exact closeupval_inv h hfirst

/-- Whatever the program and the collector do. -/
theorem perform_inv {a : Action} (h : Inv g) (ha : Allowed g a) (hs : Shielded g a) : Inv (perform a g) := by
  cases a with
  | singlestep => exact singlestep_inv h
  | markroot => exact markroot_inv h (.inr ha)
  | resetsweep => exact resetsweep_inv h
  | close => exact close_inv h
  | callGCTM => exact gctm_inv h hs
  | push v => exact h.pushes fun c hc => h.accessible_value ha c hc
  | setstack th i v => exact h.setstack fun c hc => h.accessible_value ha.2.2 c hc
  | settop th n => exact h.settop
  | setlim th n => exact h.setlim
  | resume th =>
    refine h.others th g.mt g.closing fun o ho => ?_
    rcases State.mem_roots.mp ho with rfl | rfl | ho
    · exact h.roots _ State.mainthread_mem_roots
    · exact h.accessible ha
    · exact h.roots o (State.mem_roots.mpr (.inr (.inr ho)))
  | newtable t => exact ((differs_table ha).link trivial h).pushes h rfl
  | newCclosure cl env upvalue =>
    refine ((differs_closure ha.1 fun c hc => ?_).link trivial h).pushes h rfl
    rcases List.mem_cons.mp hc with rfl | hc
    · exact h.accessible ha.2.1
    · obtain ⟨v, hv, hval⟩ := mem_gcvalues.mp hc
      exact h.accessible (ha.2.2 v hv c hval)
  | newLclosure cl env p l =>
    obtain ⟨hnew, henv, hp, hl, hnodup⟩ := ha
    obtain ⟨h1, halive⟩ := newLclosure_inv h hnew (h.accessible henv) (h.accessible hp) (fun k hk => (hl k hk).fits h) hnodup
    refine h1.pushes fun c hc => ?_
    rw [List.mem_singleton.mp hc]
    exact halive
  | newproto p => exact ((differs_proto ha).link trivial h).pushes h rfl
  | newthread th => exact ((differs_thread h ha).link trivial h).pushes h rfl
  | newudata u env => exact (made_udata h ha.1 (h.accessible ha.2)).pushes h rfl
  | newlstr ts str i => exact (made_string h ha.1 ha.2).pushes h rfl
  | findstr ts => exact findstr_inv h ha
  | fix ts => exact fix_inv h (h.accessible ha).1
  | resize strt => exact resize_inv h ha.1 ha.2
  | closeupval th => exact closefirst_inv h (h.accessible ha).1
  | settable t newkey v array node =>
    obtain ⟨ht, hv, hkey, hrefs⟩ := ha
    refine h.settable (h.accessible ht).1 (fun c hc => ?_) hrefs
    obtain ⟨w, hw, hval⟩ := mem_gcvalues.mp hc
    rcases List.mem_cons.mp hw with rfl | hw
    · exact h.accessible (hv c hval)
    · exact h.accessible (hkey w (Option.mem_toList.mp hw) c hval)
  | setmetatable t mt => exact h.setmetatable (h.accessible ha.1).1 (h.table ha.2)
  | setudatametatable u mt => exact h.setudatametatable (h.accessible ha.1).1 (h.table ha.2)
  | settypemetatable tt mt => exact settypemetatable_inv h (h.table ha)
  | setfenv o env => exact h.setfenv (h.accessible ha.1).1 (h.accessible ha.2)
  | opSetupval uv v => exact h.opSetupval (h.accessible ha.1).1 fun c hc => h.accessible_value ha.2 c hc
  | setupvalue cl n v =>
    exact h.setupvalue (h.accessible ha.1).1 (fun c hc => h.accessible_value ha.2 c hc) hs
  | setproto p x o => exact h.setproto (h.accessible ha.1).1 (h.accessible ha.2.1) ha.2.2

/-- The main thread is there, and its globals; nothing has been marked. -/
theorem start_inv : Inv start := by
  have hw : OneWhite start.currentwhite := .inl rfl
  have hobjects : start.objects = [.table 1, .table 0, .thread 0, .string 0, .string 1] := by decide
  have hfresh : ∀ o ∈ start.objects, Fresh start o := by
    rw [hobjects]
    intro o ho
    simp only [List.mem_cons, List.not_mem_nil, or_false] at ho
    rcases ho with rfl | rfl | rfl | rfl | rfl
    · change isfresh _ (bitmask WHITE0BIT)
      decide
    · change isfresh _ (bitmask WHITE0BIT)
      decide
    · change isfresh _ (bitmask WHITE0BIT ||| (bitmask FIXEDBIT ||| bitmask SFIXEDBIT))
      decide
    · change isfresh _ (bitmask WHITE0BIT ||| bitmask FIXEDBIT)
      decide
    · change isfresh _ (bitmask WHITE0BIT ||| bitmask FIXEDBIT)
      decide
  have hrefs : ∀ o ∈ start.objects, ∀ c ∈ refs start.heap o, c = .table 0 := by
    rw [hobjects]
    intro o ho c hc
    simp only [List.mem_cons, List.not_mem_nil, or_false] at ho
    rcases ho with rfl | rfl | rfl | rfl | rfl
    · cases hc
    · cases hc
    · exact List.mem_singleton.mp hc
    · cases hc
    · cases hc
  have hnot : ∀ o ∈ start.objects, ¬ Dead start o := fun o ho => (hfresh o ho).not_dead hw
  have hglobals : GCObject.table 0 ∈ start.objects := by
    rw [hobjects]
    decide
  have hroots : ∀ o ∈ start.roots, o ∈ start.objects := by
    intro o ho
    rw [hobjects]
    have heq : start.roots = [.thread 0, .thread 0, .table 1] := by decide
    rw [heq] at ho
    simp only [List.mem_cons, List.not_mem_nil, or_false] at ho
    rcases ho with rfl | rfl | rfl
    · decide
    · decide
    · decide
  have hfixed : ∀ o ∈ start.objects, testbit (start.marked o) FIXEDBIT = true →
      (∃ ts, o = .string ts) ∨ o = .thread start.mainthread := by
    rw [hobjects]
    intro o ho hfix
    simp only [List.mem_cons, List.not_mem_nil, or_false] at ho
    have hclear : testbit (bitmask WHITE0BIT) FIXEDBIT = false := by decide
    rcases ho with rfl | rfl | rfl | ⟨rfl⟩ | ⟨rfl⟩
    · exact absurd (hclear.symm.trans hfix) (by decide)
    · exact absurd (hclear.symm.trans hfix) (by decide)
    · exact .inr rfl
    · exact .inl ⟨0, rfl⟩
    · exact .inl ⟨1, rfl⟩
  refine ⟨⟨?_, fun o ho => ?_, ?_, fun th _ => ⟨List.nodup_nil, ?_⟩, ?_, hw, hfixed, ?_⟩, fun o ho => .inl (hfresh o ho),
    fun o ho _ c hc => ?_, fun o ho => ⟨hroots o ho, hnot o (hroots o ho)⟩, ?_, fun _ o ho => .inl (hfresh o ho),
    ?_, ?_, ?_⟩
  · rw [hobjects]
    decide
  · have hcases : o = .table 1 ∨ o = .table 0 := by simpa [start] using ho
    rcases hcases with rfl | rfl
    · trivial
    · trivial
  · simp [start]
  · simp [start]
  · simp [start]
  · simp [start]
  · rw [hrefs o ho c hc]
    exact ⟨hglobals, hnot _ hglobals⟩
  · simp [start]
  · simp [start]
  · simp [start]
  · simp [start]

end Steps

/-! ## Runs -/

section Runs

variable {g : State} {o c : GCObject}

/-- A step that keeps to what the collector assumes. -/
def ShieldedStep (g g' : State) : Prop := ∃ a, Allowed g a ∧ Shielded g a ∧ g' = perform a g

/-- The invariant holds in every state that such a run comes to. -/
theorem inv_of_run (h : Run.Reach (· = start) ShieldedStep g) : Inv g := by
  refine h.inv Inv ?_ ?_
  · rintro _ rfl
    exact start_inv
  · rintro _ _ hi ⟨a, ha, hs, rfl⟩
    exact perform_inv hi ha hs

/-- No object that can be reached is freed, nor will it be by the sweep that is under way. -/
theorem accessible_kept (h : Run.Reach (· = start) ShieldedStep g) (ho : Accessible g o) :
    o ∈ g.objects ∧ isdead g.currentwhite (g.marked o) = false := by
  have hi := inv_of_run h
  obtain ⟨hin, hd⟩ := hi.accessible ho
  exact ⟨hin, eq_false_of_ne_true fun hdead => hd ((hi.isdead_iff hin).mp hdead)⟩

/-- A new table is put into the table of globals. -/
def stored : State :=
  perform (.settable 0 (some (.plain 1)) (.table 2) [] [⟨.plain 1, false, .table 2⟩]) (perform (.newtable 2) start)

theorem stored_run : Run.Reach (· = start) ShieldedStep stored := by
  have hnew : Allowed start (.newtable 2) := by
    change GCObject.table 2 ∉ start.objects
    decide
  have hglobals : Accessible (perform (.newtable 2) start) (.table 0) :=
    .step (.start (s := .thread 0) (by decide)) (by decide)
  have htable : Accessible (perform (.newtable 2) start) (.table 2) :=
    .step (.start (s := .thread 0) (by decide)) (by decide)
  refine .step (.step (.start rfl) ⟨.newtable 2, hnew, trivial, rfl⟩) ⟨.settable 0 (some (.plain 1)) (.table 2) []
    [⟨.plain 1, false, .table 2⟩], ⟨hglobals, ?_, ?_, ?_⟩, trivial, rfl⟩
  · rintro o ⟨⟩
    exact htable
  · rintro k ⟨⟩ o ⟨⟩
  · decide

theorem accessible_kept_stored : .table 2 ∈ (perform .singlestep stored).objects ∧
    isdead (perform .singlestep stored).currentwhite ((perform .singlestep stored).marked (.table 2)) = false :=
  accessible_kept (.step stored_run ⟨.singlestep, trivial, trivial, rfl⟩)
    (.step (.step (.start (s := .thread 0) (by decide)) (show GCObject.table 0 ∈ _ by decide)) (by decide))

/-- In the mark phase a marked object is where its references will be found, or they are marked; only userdata
that waits for its finalizer is black before. -/
theorem tricolour (h : Run.Reach (· = start) ShieldedStep g) (hs : g.gcstate = .GCSpropagate) (ho : o ∈ g.objects)
    (hw : g.white o = false) :
    Settled g o ∧ (g.black o = true → ¬ Pending g o → ∀ c ∈ refs g.heap o, c ∈ g.objects ∧ g.white c = false) := by
  have hphase := ((inv_of_run h).marks hs).phase
  exact ⟨hphase.settled o ho hw, fun hb hp c hc => ⟨hphase.closed o ho c hc, hphase.black o ho hb hp id c hc⟩⟩

/-- The table of globals is traversed after that of the registry. -/
theorem tricolour_stored :
    let g := perform .singlestep (perform .singlestep (perform .singlestep stored))
    Settled g (.table 0) ∧ (g.black (.table 0) = true → ¬ Pending g (.table 0) →
      ∀ c ∈ refs g.heap (.table 0), c ∈ g.objects ∧ g.white c = false) :=
  tricolour (.step (.step (.step stored_run ⟨.singlestep, trivial, trivial, rfl⟩) ⟨.singlestep, trivial, trivial, rfl⟩)
    ⟨.singlestep, trivial, trivial, rfl⟩) (by decide) (by decide) (by decide)

/-- The entries of a table that lives are of objects that live, also where the table is weak. -/
theorem weak_entries (h : Run.Reach (· = start) ShieldedStep g) {t : Nat} (ht : .table t ∈ g.objects)
    (hd : isdead g.currentwhite (g.marked (.table t)) = false) {v : TValue}
    (hv : v ∈ (g.heap.table t).array ∨ ∃ nd ∈ (g.heap.table t).node, nd.val ≠ .nil ∧ (v = nd.key ∨ v = nd.val))
    (hval : v.gcvalue = some o) : o ∈ g.objects ∧ isdead g.currentwhite (g.marked o) = false := by
  have hi := inv_of_run h
  have halive : ¬ Dead g (.table t) := fun hdead => by
    rw [(hi.isdead_iff ht).mpr hdead] at hd
    cases hd
  have hmem : o ∈ refs g.heap (.table t) := by
    refine Table.mem_refs.mpr (.inr ?_)
    rcases hv with harray | ⟨nd, hnd, hne, heq⟩
    · exact .inl ⟨rfl, mem_gcvalues.mpr ⟨v, harray, hval⟩⟩
    · refine .inr ⟨nd, hnd, hne, heq.imp (fun hkey => ⟨rfl, ?_⟩) fun hvalue => ⟨rfl, ?_⟩⟩
      · rw [← hkey]
        exact hval
      · rw [← hvalue]
        exact hval
  obtain ⟨hin, hdo⟩ := hi.live _ ht halive o hmem
  exact ⟨hin, eq_false_of_ne_true fun hdead => hdo ((hi.isdead_iff hin).mp hdead)⟩

theorem weak_entries_stored : .table 2 ∈ stored.objects ∧ isdead stored.currentwhite (stored.marked (.table 2)) = false :=
  weak_entries (t := 0) (v := .table 2) stored_run (by decide) (by decide)
    (.inr ⟨⟨.plain 1, false, .table 2⟩, by decide, (by simp), .inr rfl⟩) rfl

end Runs

end UgmeeLua.Gc

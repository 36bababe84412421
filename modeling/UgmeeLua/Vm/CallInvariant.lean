import UgmeeLua.Vm.CallFrames
import UgmeeLua.Vm.OpenList

namespace UgmeeLua.Calls

open Block Ltable Upvalues

variable {N : Type}

/-- What holds while a function runs that has been entered in the state `E`: its frame and those above it
lie one behind the other, and so do the protected calls that have begun since. No upvalue is open between
the function and its base, and what lies there stays as long as no tail call puts another function of
its kind in its place. The frames below are as they were. -/
structure Within (H : Host N) (E : Stack N) (outer : List Handler) (s : State N) : Prop where
  ordered : s.L.up.Ordered
  ci : E.ci ≤ s.L.ci
  base : s.L.base = s.L.frame.base
  top : s.L.base ≤ s.L.top
  func : ∀ i, E.ci ≤ i → i ≤ s.L.ci → E.frame.func ≤ (s.L.frames i).func ∧
    (s.L.frames i).func < (s.L.frames i).base
  nested : ∀ i, E.ci ≤ i → i < s.L.ci → (s.L.frames i).base ≤ (s.L.frames (i + 1)).func
  isOpen : ∀ u l, s.L.up.OpenAt u l → l < E.frame.func ∨ (s.L.frames E.ci).base ≤ l
  handlers : ∃ hs, s.handlers = hs ++ outer ∧ hs.Pairwise (fun h h' => h'.ci ≤ h.ci) ∧
    ∀ h ∈ hs, E.ci ≤ h.ci ∧ h.ci ≤ s.L.ci ∧ (s.L.frames h.ci).base ≤ h.oldtop
  lower : ∀ i < E.ci, s.L.frames i = E.frames i
  place : (s.L.frames E.ci).func = E.frame.func ∧ (s.L.frames E.ci).nresults = E.frame.nresults
  tailcalls : E.frame.tailcalls ≤ (s.L.frames E.ci).tailcalls
  isLua : s.L.isLuaAt H E.ci = E.isLua H
  same : (s.L.frames E.ci).tailcalls = E.frame.tailcalls →
    s.L.frames E.ci = { E.frame with savedpc := (s.L.frames E.ci).savedpc } ∧
      ∀ p, E.frame.func ≤ p → p < E.frame.base → s.L.get p = E.get p

namespace Within

variable {H : Host N} {E : Stack N} {outer : List Handler} {s : State N} {L : Stack N}

theorem base_le (h : Within H E outer s) {i j : Nat} (hi : E.ci ≤ i) (hij : i ≤ j) (hj : j ≤ s.L.ci) :
    (s.L.frames i).base ≤ (s.L.frames j).base := by
  induction j, hij using Nat.le_induction with
  | base => exact Nat.le_refl _
  | succ j hij ih =>
    have hnested := h.nested j (by omega) (by omega)
    have hfunc := (h.func (j + 1) (by omega) hj).2
    have hbase := ih (by omega)
    omega

theorem bottom_le (h : Within H E outer s) : (s.L.frames E.ci).base ≤ s.L.base := by
  rw [h.base]
  exact h.base_le (Nat.le_refl _) h.ci (Nat.le_refl _)

theorem low_lt_base (h : Within H E outer s) : E.frame.func < s.L.base := by
  obtain ⟨hlow, hlt⟩ := h.func s.L.ci h.ci (Nat.le_refl _)
  rw [h.base]
  exact Nat.lt_of_le_of_lt hlow hlt

/-- The frame of the function stays, and the stack below its base but for open upvalues. -/
theorem same_of (h : Within H E outer s) {c : CallInfo} {m : Nat → TValue N}
    (hc : c = { s.L.frames E.ci with savedpc := c.savedpc })
    (hm : ∀ p < (s.L.frames E.ci).base, (∀ u, ¬ s.L.up.OpenAt u p) → m p = s.L.get p) :
    c.tailcalls = E.frame.tailcalls → c = { E.frame with savedpc := c.savedpc } ∧
      ∀ p, E.frame.func ≤ p → p < E.frame.base → m p = E.get p := by
  intro htail
  have htail' : (s.L.frames E.ci).tailcalls = E.frame.tailcalls := by
    rw [hc] at htail
    exact htail
  obtain ⟨hframe, hget⟩ := h.same htail'
  have hbase : (s.L.frames E.ci).base = E.frame.base := by rw [hframe]
  constructor
  · rw [hc, hframe]
  · intro p hlow hlt
    have hopen : ∀ u, ¬ s.L.up.OpenAt u p := by
      intro u hu
      have hzone := h.isOpen u p hu
      omega
    rw [hm p (by omega) hopen]
    exact hget p hlow hlt

/-- The function at the bottom stays. -/
theorem isLua_of (h : Within H E outer s) {L : Stack N}
    (hfunc : (L.frames E.ci).func = (s.L.frames E.ci).func)
    (hm : ∀ p < (s.L.frames E.ci).base, (∀ u, ¬ s.L.up.OpenAt u p) → L.get p = s.L.get p) :
    L.isLuaAt H E.ci = E.isLua H := by
  obtain ⟨hlow, hlt⟩ := h.func E.ci (Nat.le_refl _) h.ci
  have hopen : ∀ u, ¬ s.L.up.OpenAt u (s.L.frames E.ci).func := by
    intro u hu
    have hzone := h.isOpen u _ hu
    omega
  have hsame := h.isLua
  rw [Stack.isLuaAt, Stack.funcAt] at hsame ⊢
  rw [hfunc, hm _ hlt hopen]
  exact hsame

/-- The frame that runs stays; what is new on the open list is in it. -/
theorem stay (h : Within H E outer s) (hframes : L.frames = s.L.frames) (hci : L.ci = s.L.ci)
    (hbase : L.base = s.L.base) (htop : s.L.base ≤ L.top) (hord : L.up.Ordered)
    (hopen : ∀ u l, L.up.OpenAt u l → s.L.up.OpenAt u l ∨ s.L.base ≤ l)
    (hget : ∀ p < s.L.base, (∀ u, ¬ s.L.up.OpenAt u p) → L.get p = s.L.get p) :
    Within H E outer (s.withL L) := by
  have hbottom := h.bottom_le
  refine ⟨hord, ?_, ?_, ?_, ?_, ?_, ?_, ?_, ?_, ?_, ?_, ?_, ?_⟩
  · simpa only [State.withL, hci] using h.ci
  · have hb := h.base
    simp only [Stack.frame] at hb
    simp only [State.withL, Stack.frame, hbase, hframes, hci]
    exact hb
  · simpa only [State.withL, hbase] using htop
  · simpa only [State.withL, hframes, hci] using h.func
  · simpa only [State.withL, hframes, hci] using h.nested
  · intro u l hl
    simp only [State.withL, hframes] at hl ⊢
    rcases hopen u l hl with hold | hnew
    · exact h.isOpen u l hold
    · exact .inr (Nat.le_trans hbottom hnew)
  · simpa only [State.withL, hframes, hci] using h.handlers
  · simpa only [State.withL, hframes] using h.lower
  · simpa only [State.withL, hframes] using h.place
  · simpa only [State.withL, hframes] using h.tailcalls
  · exact h.isLua_of (by rw [State.withL, hframes]) fun p hp => hget p (Nat.lt_of_lt_of_le hp hbottom)
  · simp only [State.withL, hframes]
    exact h.same_of rfl fun p hp => hget p (Nat.lt_of_lt_of_le hp hbottom)

/-- A change on the stack. -/
theorem stayStack (h : Within H E outer s) (hframes : L.frames = s.L.frames)
    (hci : L.ci = s.L.ci) (hbase : L.base = s.L.base) (htop : s.L.base ≤ L.top)
    (hheap : L.up.heap = s.L.up.heap) (hlist : L.up.openupval = s.L.up.openupval)
    (huv : L.up.uvhead = s.L.up.uvhead) (hget : ∀ p < s.L.base, L.get p = s.L.get p) :
    Within H E outer (s.withL L) := by
  have hat : ∀ u l, L.up.OpenAt u l ↔ s.L.up.OpenAt u l := by
    intro u l
    simp only [OpenAt, hheap]
  exact h.stay hframes hci hbase htop (h.ordered.congr hat hlist huv)
    (fun u l hl => .inl ((hat u l).mp hl)) fun p hp _ => hget p hp

/-- A block of values in the frame that runs. -/
theorem stayFill (h : Within H E outer s) {lo n : Nat} {f : Nat → TValue N} {top : Nat}
    (hlo : s.L.base ≤ lo) (htop : s.L.base ≤ top) :
    Within H E outer (s.withL { s.L.withStack (fun m => fill m lo n f) with top := top }) :=
  h.stayStack (L := { s.L.withStack (fun m => fill m lo n f) with top := top }) rfl rfl rfl htop rfl rfl
    rfl fun _ hp => fill_out (by omega)

theorem close (h : Within H E outer s) (level : Nat) :
    Within H E outer (s.withL { s.L with up := luaFClose s.L.up level }) :=
  h.stay (L := { s.L with up := luaFClose s.L.up level }) rfl rfl rfl h.top
    (luaFClose_spec h.ordered level).1 (fun _ _ hl => .inl ((openAt_luaFClose h.ordered).mp hl).1)
    fun p _ _ => congrFun (luaFClose_spec h.ordered level).2.1 p

theorem findupval (h : Within H E outer s) (i : Nat) {addr : Nat}
    (hfree : s.L.up.heap addr = none) :
    Within H E outer
      (s.withL { s.L with up := (luaFFindupval s.L.up (s.L.base + i) addr).2 }) := by
  have hcap := luaFFindupval_captured (s.L.base + i) h.ordered hfree
  generalize luaFFindupval s.L.up (s.L.base + i) addr = r at hcap
  refine h.stay (L := { s.L with up := r.2 }) rfl rfl rfl h.top hcap.ordered (fun u l hl => ?_)
    fun p _ _ => congrFun hcap.stack p
  by_cases hu : u = r.1
  · obtain ⟨uv, hp, hv, -⟩ := hcap.alive
    have hat : r.2.OpenAt u (s.L.base + i) := ⟨uv, hu ▸ hp, hv⟩
    have hl' := hl.unique hat
    exact .inr (by omega)
  · obtain ⟨uv, hp, hv⟩ := hl
    exact .inl ⟨uv, (hcap.others u hu).symm.trans hp, hv⟩

theorem write (h : Within H E outer s) (u : Nat) (v : TValue N) :
    Within H E outer (s.withL { s.L with up := s.L.up.write u v }) := by
  have hat : ∀ w l, (s.L.up.write u v).OpenAt w l ↔ s.L.up.OpenAt w l := by
    intro w l
    unfold Upvalues.write
    cases hu : s.L.up.heap u with
    | none => rfl
    | some uv =>
      cases hv : uv.v with
      | stack m => simp only [hv]; rfl
      | own => simp only [hv]; exact openAt_setHeap hu hv.symm w l
  have hlists : (s.L.up.write u v).openupval = s.L.up.openupval ∧
      (s.L.up.write u v).uvhead = s.L.up.uvhead := by
    unfold Upvalues.write
    cases hu : s.L.up.heap u with
    | none => exact ⟨rfl, rfl⟩
    | some uv => cases hv : uv.v <;> simp only [hv] <;> exact ⟨rfl, rfl⟩
  have hget : ∀ p, (∀ w, ¬ s.L.up.OpenAt w p) → (s.L.up.write u v).stack p = s.L.up.stack p := by
    intro p hp
    unfold Upvalues.write
    cases hu : s.L.up.heap u with
    | none => rfl
    | some uv =>
      cases hv : uv.v with
      | stack m =>
        have hne : p ≠ m := fun heq => hp u ⟨uv, hu, heq ▸ hv⟩
        simp only [hv, Upvalues.setStack, if_neg hne]
      | own => simp only [hv, Upvalues.setHeap]
  exact h.stay (L := { s.L with up := s.L.up.write u v }) rfl rfl rfl h.top
    (h.ordered.congr hat hlists.1 hlists.2) (fun w l hl => .inl ((hat w l).mp hl))
    fun p _ hp => hget p hp

/-- A function is entered that lies in the frame that runs, or above it. -/
theorem enter {ra : Nat} {wanted : Int} {e : Entered} {M : Stack N}
    (h : Within H E outer s) (hra : s.L.base ≤ ra) (hE : Entry H s.L ra wanted e M) :
    Within H E outer (s.withL M) := by
  have hlow := h.low_lt_base
  have hci : E.ci ≤ s.L.ci := h.ci
  have hplace : ∀ i ≤ s.L.ci, (M.frames i).func = (s.L.frames i).func ∧
      (M.frames i).base = (s.L.frames i).base := by
    intro i hi
    rcases Nat.lt_or_eq_of_le hi with hlt | heq
    · rw [hE.frames i hlt]
      exact ⟨rfl, rfl⟩
    · rw [heq, hE.caller]
      exact ⟨rfl, rfl⟩
  have hbottom := h.bottom_le
  have hold : (M.frames E.ci).tailcalls = (s.L.frames E.ci).tailcalls ∧
      M.frames E.ci = { s.L.frames E.ci with savedpc := (M.frames E.ci).savedpc } := by
    rcases Nat.lt_or_eq_of_le hci with hlt | heq
    · rw [hE.frames E.ci hlt]
      exact ⟨rfl, rfl⟩
    · rw [heq, hE.caller]
      exact ⟨rfl, rfl⟩
  have hnew : M.frames (s.L.ci + 1) = M.frame := by rw [Stack.frame, hE.ci]
  have hat : ∀ u l, M.up.OpenAt u l ↔ s.L.up.OpenAt u l := by
    intro u l
    simp only [OpenAt, hE.heap]
  refine ⟨h.ordered.congr hat hE.openupval hE.uvhead, ?_, hE.base, hE.top, ?_, ?_, ?_, ?_, ?_, ?_, ?_,
    ?_, ?_⟩
  · simp only [State.withL, hE.ci]
    omega
  · intro i hi hle
    simp only [State.withL, hE.ci] at hle ⊢
    by_cases hold : i ≤ s.L.ci
    · rw [(hplace i hold).1, (hplace i hold).2]
      exact h.func i hi hold
    · have heq : i = s.L.ci + 1 := by omega
      rw [heq, hnew, hE.func, ← hE.base]
      exact ⟨by omega, hE.lt⟩
  · intro i hi hlt
    simp only [State.withL, hE.ci] at hlt ⊢
    rw [(hplace i (by omega)).2]
    by_cases hold : i < s.L.ci
    · rw [(hplace (i + 1) hold).1]
      exact h.nested i hi hold
    · have heq : i = s.L.ci := by omega
      have hbase := h.base
      rw [Stack.frame] at hbase
      rw [heq, hnew, hE.func, ← hbase]
      exact hra
  · intro u l hl
    simp only [State.withL, (hplace E.ci hci).2]
    exact h.isOpen u l ((hat u l).mp hl)
  · obtain ⟨hs, heq, hsorted, hin⟩ := h.handlers
    refine ⟨hs, heq, hsorted, fun x hx => ?_⟩
    obtain ⟨hx1, hle, hx2⟩ := hin x hx
    simp only [State.withL, hE.ci]
    rw [(hplace x.ci hle).2]
    exact ⟨hx1, by omega, hx2⟩
  · intro i hi
    simp only [State.withL]
    rw [hE.frames i (by omega)]
    exact h.lower i hi
  · simp only [State.withL]
    rw [hold.2]
    exact h.place
  · simp only [State.withL]
    rw [hold.1]
    exact h.tailcalls
  · exact h.isLua_of (hplace E.ci hci).1 fun p hp _ => hE.below p (by omega)
  · simp only [State.withL]
    refine h.same_of hold.2 fun p hp _ => hE.below p (by omega)

/-- The protected calls that have begun since belong to frames below the one that runs. -/
theorem handlers_below (h : Within H E outer s) (hs : s.unprotected = true) :
    ∃ hs, s.handlers = hs ++ outer ∧ hs.Pairwise (fun x y => y.ci ≤ x.ci) ∧
      ∀ x ∈ hs, E.ci ≤ x.ci ∧ x.ci < s.L.ci ∧ (s.L.frames x.ci).base ≤ x.oldtop := by
  obtain ⟨hs', heq, hsorted, hin⟩ := h.handlers
  refine ⟨hs', heq, hsorted, fun x hx => ?_⟩
  obtain ⟨hbottom, -, hold⟩ := hin x hx
  refine ⟨hbottom, ?_, hold⟩
  cases hs' with
  | nil => simp at hx
  | cons y ys =>
    have hy : y.ci < s.L.ci := by simpa [State.unprotected, heq] using hs
    rcases List.mem_cons.mp hx with rfl | hx
    · exact hy
    · exact Nat.lt_of_le_of_lt ((List.pairwise_cons.mp hsorted).1 x hx) hy

/-- The function that has been entered takes the place of the one that calls it. -/
theorem replace {ra : Nat} {wanted : Int} {e : Entered} {M : Stack N}
    (h : Within H E outer s) (hra : s.L.base ≤ ra) (hE : Entry H s.L ra wanted e M)
    (hs : s.unprotected = true) (hlua : s.L.isLua H = true) (he : e = .PCRLUA) :
    Within H E outer (s.withL (replaceFrame M)) := by
  have hin := h.enter hra hE
  have hci : E.ci ≤ s.L.ci := h.ci
  have hlast : M.ci - 1 = s.L.ci := by rw [hE.ci, Nat.add_sub_cancel]
  have hcaller : M.frames s.L.ci = { s.L.frame with savedpc := s.L.savedpc } := hE.caller
  have hbase : s.L.frame.base = s.L.base := h.base.symm
  have hfunc := (h.func s.L.ci hci (Nat.le_refl _))
  rw [← Stack.frame, hbase] at hfunc
  have hle : (M.frames (M.ci - 1)).func ≤ M.frame.func := by
    rw [hlast, hcaller, hE.func]
    exact Nat.le_trans hfunc.2.le hra
  have hnew : M.replaced.func = s.L.frame.func := by
    simp only [Stack.replaced, hlast, hcaller]
  have hnewBase : M.replaced.base = s.L.frame.func + (M.base - ra) := by
    simp only [Stack.replaced, hlast, hcaller, hE.func, hE.base]
  have hnewTop : M.replaced.top = s.L.frame.func + (M.top - ra) := by
    simp only [Stack.replaced, hlast, hcaller, hE.func]
  have hlt := hE.lt
  have htop := hE.top
  have hold : ∀ i < s.L.ci, (replaceFrame M).frames i = s.L.frames i := by
    intro i hi
    rw [replaceFrame_eq hle]
    simp only [Stack.setFrame, hlast, if_neg (Nat.ne_of_lt hi)]
    exact hE.frames i hi
  have hlastFrame : (replaceFrame M).frames s.L.ci = M.replaced := by
    rw [replaceFrame_eq hle]
    simp [Stack.setFrame, hlast]
  have hnewCi : (replaceFrame M).ci = s.L.ci := by
    rw [replaceFrame_eq hle]
    exact hlast
  have hwanted : M.replaced.nresults = (s.L.frames s.L.ci).nresults := by
    simp only [Stack.replaced, hlast, hcaller]
    rfl
  have hcount : M.replaced.tailcalls = (s.L.frames s.L.ci).tailcalls + 1 := by
    simp only [Stack.replaced, hlast, hcaller]
    rfl
  have hget : ∀ p < s.L.frame.func, (replaceFrame M).get p = s.L.get p := by
    intro p hp
    rw [replaceFrame_eq hle, hlast, hcaller]
    have hclose := congrFun (luaFClose_spec hin.ordered s.L.frame.base).2.1 p
    have hout := fill_out (m := (luaFClose M.up s.L.frame.base).stack) (n := M.top - M.frame.func)
      (f := fun i => (luaFClose M.up s.L.frame.base).stack (M.frame.func + i)) (.inl hp)
    exact hout.trans (hclose.trans (hE.below p (by omega)))
  have hat : ∀ u l, (replaceFrame M).up.OpenAt u l → s.L.up.OpenAt u l ∧ l < s.L.base := by
    intro u l hl
    rw [replaceFrame_eq hle] at hl
    have hcl := (openAt_luaFClose (u := u) (l := l) hin.ordered).mp hl
    rw [hlast, hcaller] at hcl
    obtain ⟨⟨uv, hu, hv⟩, hbelow⟩ := hcl
    exact ⟨⟨uv, hE.heap ▸ hu, hv⟩, hbase ▸ hbelow⟩
  have hcallee : (replaceFrame M).get s.L.frame.func = M.get M.frame.func := by
    rw [replaceFrame_eq hle, hlast, hcaller]
    have hstack := (luaFClose_spec hin.ordered s.L.frame.base).2.1
    have hpos : 0 < M.top - M.frame.func := by
      rw [hE.func]
      omega
    have hfirst : fill (luaFClose M.up s.L.frame.base).stack s.L.frame.func (M.top - M.frame.func)
        (fun i => (luaFClose M.up s.L.frame.base).stack (M.frame.func + i)) (s.L.frame.func + 0) = _ :=
      fill_in hpos
    exact hfirst.trans (congrFun hstack _)
  have hbelow : s.L.ci ≠ E.ci → (s.L.frames E.ci).base ≤ s.L.frame.func := by
    intro hne
    have hbefore := h.base_le (Nat.le_refl E.ci) (by omega : E.ci ≤ s.L.ci - 1) (Nat.sub_le _ 1)
    have hnested := h.nested (s.L.ci - 1) (by omega) (by omega)
    have hpred : s.L.ci - 1 + 1 = s.L.ci := by omega
    rw [hpred, ← Stack.frame] at hnested
    omega
  refine ⟨?_, ?_, ?_, ?_, ?_, ?_, ?_, ?_, ?_, ?_, ?_, ?_, ?_⟩
  · rw [replaceFrame_eq hle]
    exact (luaFClose_spec hin.ordered _).1.congr (fun _ _ => Iff.rfl) rfl rfl
  · simp only [State.withL, hnewCi]
    exact hci
  · simp only [State.withL, Stack.frame, hnewCi, hlastFrame]
    rw [replaceFrame_eq hle]
  · rw [replaceFrame_eq hle]
    simp only [State.withL, hnewBase, hnewTop]
    omega
  · intro i hi hle'
    simp only [State.withL, hnewCi] at hle' ⊢
    rcases Nat.lt_or_eq_of_le hle' with hlt' | heq
    · rw [hold i hlt']
      exact h.func i hi hle'
    · rw [heq, hlastFrame, hnew, hnewBase]
      exact ⟨hfunc.1, by omega⟩
  · intro i hi hlt'
    simp only [State.withL, hnewCi] at hlt' ⊢
    have hnested := h.nested i hi hlt'
    rw [hold i hlt']
    rcases Nat.lt_or_eq_of_le (Nat.succ_le_of_lt hlt') with hlt'' | heq
    · rw [hold (i + 1) hlt'']
      exact hnested
    · rw [Nat.succ_eq_add_one] at heq
      rw [heq] at hnested ⊢
      rw [hlastFrame, hnew]
      exact hnested
  · intro u l hl
    obtain ⟨hopen, hbelow⟩ := hat u l hl
    simp only [State.withL]
    rcases h.isOpen u l hopen with hl' | hl'
    · exact .inl hl'
    · rcases Nat.lt_or_eq_of_le hci with hlt' | heq
      · rw [hold E.ci hlt']
        exact .inr hl'
      · rw [heq, ← Stack.frame, hbase] at hl'
        omega
  · obtain ⟨hs', heq, hsorted, hin'⟩ := h.handlers_below hs
    refine ⟨hs', heq, hsorted, fun x hx => ?_⟩
    obtain ⟨hbottom, hx', hold'⟩ := hin' x hx
    simp only [State.withL, hnewCi, hold x.ci hx']
    exact ⟨hbottom, hx'.le, hold'⟩
  · intro i hi
    simp only [State.withL]
    rw [hold i (by omega)]
    exact h.lower i hi
  · have hplace := h.place
    simp only [State.withL]
    rcases Nat.lt_or_eq_of_le hci with hlt' | heq
    · rw [hold E.ci hlt']
      exact hplace
    · rw [heq] at hplace
      rw [heq, hlastFrame, hnew, hwanted]
      exact hplace
  · have htail := h.tailcalls
    simp only [State.withL]
    rcases Nat.lt_or_eq_of_le hci with hlt' | heq
    · rw [hold E.ci hlt']
      exact htail
    · rw [heq] at htail
      rw [heq, hlastFrame, hcount]
      exact Nat.le_succ_of_le htail
  · simp only [State.withL]
    rcases Nat.lt_or_eq_of_le hci with hlt' | heq
    · have hplace := hbelow hlt'.ne'
      exact h.isLua_of (by rw [hold E.ci hlt']) fun p hp _ => hget p (by omega)
    · have hkind := h.isLua
      have hnewKind := hE.isLua
      rw [he] at hnewKind
      rw [heq, ← Stack.isLua, hlua] at hkind
      rw [← hkind, heq, Stack.isLuaAt, Stack.funcAt, hlastFrame, hnew, hcallee]
      exact hnewKind
  · have htail := h.tailcalls
    simp only [State.withL]
    rcases Nat.lt_or_eq_of_le hci with hlt' | heq
    · rw [hold E.ci hlt']
      have hplace := hbelow hlt'.ne'
      refine h.same_of rfl fun p hp _ => ?_
      exact hget p (by omega)
    · -- another function is there from now on
      intro hsame
      rw [heq] at htail
      rw [heq, hlastFrame, hcount] at hsame
      exact absurd htail (by rw [← hsame]; exact Nat.not_succ_le_self _)

/-- The function that runs returns to one that is above the bottom. -/
theorem leave {firstResult : Nat} (h : Within H E outer s) (hs : s.unprotected = true)
    (hci : E.ci < s.L.ci) (hfirst : s.L.base ≤ firstResult) :
    Within H E outer (s.withL (luaDPoscall firstResult s.L).2) := by
  have hbase : s.L.frame.base = s.L.base := h.base.symm
  have hfunc := (h.func s.L.ci hci.le (Nat.le_refl _)).2
  rw [← Stack.frame, hbase] at hfunc
  have hpred : s.L.ci - 1 + 1 = s.L.ci := by omega
  have hbelow := h.base_le (Nat.le_refl E.ci) (Nat.le_sub_one_of_lt hci) (Nat.sub_le _ 1)
  have hnested := h.nested (s.L.ci - 1) (by omega) (by omega)
  rw [hpred, ← Stack.frame] at hnested
  rw [luaDPoscall_eq s.L (by omega)]
  refine ⟨h.ordered.congr (fun _ _ => Iff.rfl) rfl rfl, ?_, rfl, ?_, ?_, ?_, h.isOpen, ?_, h.lower,
    h.place, h.tailcalls, h.isLua_of rfl fun p hp _ => fill_out (by omega), ?_⟩
  · simp only [State.withL]
    omega
  · simp only [State.withL]
    omega
  · intro i hi hle
    simp only [State.withL] at hle
    exact h.func i hi (by omega)
  · intro i hi hlt
    simp only [State.withL] at hlt
    exact h.nested i hi (by omega)
  · obtain ⟨hs', heq, hsorted, hin⟩ := h.handlers_below hs
    refine ⟨hs', heq, hsorted, fun x hx => ?_⟩
    obtain ⟨hbottom, hx', hold⟩ := hin x hx
    simp only [State.withL]
    exact ⟨hbottom, by omega, hold⟩
  · exact h.same_of rfl fun p hp _ => fill_out (by omega)

/-- An error comes to a protected call that has begun since. -/
theorem recover {x : Handler} {rest : List Handler} (h : Within H E outer s)
    (hhandlers : s.handlers = x :: rest) (hrest : outer.length ≤ rest.length) (v : TValue N) :
    Within H E outer (s.recover x rest v) := by
  obtain ⟨hs, heq, hsorted, hin⟩ := h.handlers
  cases hs with
  | nil =>
    have hlen := congrArg List.length (hhandlers.symm.trans heq)
    simp at hlen
    omega
  | cons y ys =>
    have hxy := hhandlers.symm.trans heq
    rw [List.cons_append, List.cons.injEq] at hxy
    obtain ⟨rfl, rfl⟩ := hxy
    obtain ⟨hbottom, hle, hold⟩ := hin x List.mem_cons_self
    obtain ⟨hhead, htail⟩ := List.pairwise_cons.mp hsorted
    have hcl := h.close x.oldtop
    have hbelow := h.base_le (Nat.le_refl E.ci) hbottom hle
    have hget : ∀ p < (s.L.frames E.ci).base, (s.recover x (ys ++ outer) v).L.get p = s.L.get p := by
      intro p hp
      have hne : p ≠ x.oldtop := by omega
      have hclose := congrFun (luaFClose_spec h.ordered x.oldtop).2.1 p
      simp only [State.recover, Stack.get, Stack.set, Stack.withStack, put, if_neg hne]
      exact hclose
    refine ⟨hcl.ordered.congr (fun _ _ => Iff.rfl) rfl rfl, hbottom, rfl, ?_, ?_, ?_, hcl.isOpen, ?_,
      h.lower, h.place, h.tailcalls, ?_, ?_⟩
    · exact Nat.le_succ_of_le hold
    · intro i hi hi'
      exact h.func i hi (Nat.le_trans hi' hle)
    · intro i hi hi'
      exact h.nested i hi (Nat.lt_of_lt_of_le hi' hle)
    · refine ⟨ys, rfl, htail, fun z hz => ?_⟩
      obtain ⟨hz1, -, hz2⟩ := hin z (List.mem_cons_of_mem _ hz)
      exact ⟨hz1, hhead z hz, hz2⟩
    · exact h.isLua_of rfl fun p hp _ => hget p hp
    · exact h.same_of rfl fun p hp _ => hget p hp

end Within

section Steps

variable [LuaNumber N] {H : Host N} {E : Stack N} {outer : List Handler} {s s' : State N}
  {o : Observed N}

omit [LuaNumber N] in
theorem raise_within {v : TValue N} (h : Within H E outer s)
    (hgo : s.raise outer.length v = .go o s') : Within H E outer s' := by
  unfold State.raise at hgo
  cases hs : s.handlers with
  | nil => simp [hs] at hgo
  | cons x rest =>
    simp only [hs] at hgo
    split_ifs at hgo with hrest
    cases hgo
    exact h.recover hs (Nat.not_lt.mp hrest) v

omit [LuaNumber N] in
theorem enter_within {msg : TValue N} {r : Except (CallError N) (Entered × Stack N)}
    (h : Within H E outer s) (hr : ∀ e M, r = .ok (e, M) → Within H E outer (s.withL M))
    (hgo : s.enter outer.length msg r = .go o s') : Within H E outer s' := by
  cases r with
  | ok r =>
    obtain ⟨e, M⟩ := r
    cases hgo
    exact hr e M rfl
  | error e => cases e <;> first | exact raise_within h hgo | cases hgo

omit [LuaNumber N] in
theorem setArguments_base (a b : Nat) (L : Stack N) : (setArguments a b L).base = L.base := by
  rw [setArguments_eq]

omit [LuaNumber N] in
/-- The arguments of a call are in their place. -/
theorem Within.withArguments (h : Within H E outer s) (pc a b : Nat)
    (ha : s.L.base + a < (setArguments a b s.L).top) :
    Within H E outer (s.withL { setArguments a b s.L with savedpc := pc }) := by
  rw [setArguments_eq]
  exact h.stayStack (L := { s.L with top := (setArguments a b s.L).top, savedpc := pc }) rfl rfl rfl
    (Nat.le_trans (Nat.le_add_right _ a) ha.le) rfl rfl rfl fun _ _ => rfl

theorem opCall_entry {tm : TValue N} {addr pc a b c : Nat} {L E : Stack N} {e : Entered}
    (ha : L.base + a < (setArguments a b L).top) (hok : opCall H tm addr pc a b c L = .ok (e, E)) :
    Entry H { setArguments a b L with savedpc := pc } (L.base + a) ((c : Int) - 1) e E :=
  luaDPrecall_entry (L := { setArguments a b L with savedpc := pc }) ha hok

/-- What a tail call makes of a function that has been entered. -/
theorem opTailcall_entry {tm : TValue N} {addr pc a b : Nat} {L E' : Stack N} {e : Entered}
    (ha : L.base + a < (setArguments a b L).top) (hok : opTailcall H tm addr pc a b L = .ok (e, E')) :
    ∃ E, Entry H { setArguments a b L with savedpc := pc } (L.base + a) LUA_MULTRET e E ∧
      E' = if e = .PCRLUA then replaceFrame E else E := by
  rw [opTailcall] at hok
  cases hpre : luaDPrecall H tm addr (L.base + a) LUA_MULTRET
      { setArguments a b L with savedpc := pc } with
  | error e => simp [hpre, bind, Except.bind] at hok
  | ok r =>
    obtain ⟨e', E⟩ := r
    have hentry := luaDPrecall_entry (L := { setArguments a b L with savedpc := pc }) ha hpre
    simp only [hpre, Loop.ok_bind] at hok
    cases e' with
    | PCRLUA =>
      cases hok
      exact ⟨_, hentry, rfl⟩
    | PCRC =>
      cases hok
      exact ⟨_, hentry, rfl⟩

omit [LuaNumber N] in
theorem Within.closeFrame (h : Within H E outer s) (pc a b : Nat) :
    Within H E outer (s.withL (closeFrame pc a b s.L)) := by
  have hcl := h.close s.L.base
  have htop : s.L.base ≤ (setResults a b s.L).top := by
    have htop := h.top
    unfold setResults
    split_ifs
    · exact Nat.le_sub_one_of_lt (by omega)
    · exact htop
  exact hcl.stayStack (L := Calls.closeFrame pc a b s.L) rfl rfl rfl htop rfl rfl rfl fun _ _ => rfl

omit [LuaNumber N] in
theorem leave_within {firstResult : Nat} (h : Within H E outer s) (hun : s.unprotected = true)
    (hfirst : s.L.base ≤ firstResult)
    (hgo : s.leave E.ci (luaDPoscall firstResult s.L) = .go o s') : Within H E outer s' := by
  unfold State.leave at hgo
  split_ifs at hgo with hbottom
  cases hgo
  have hci := h.ci
  exact h.leave hun (by omega) hfirst

/-- The step lemma of runs: every action keeps the frames in their places. -/
theorem exec_within (a : Action N) (h : Within H E outer s)
    (hgo : exec H E.ci outer.length s a = .go o s') : Within H E outer s' := by
  cases a with
  | getReg i =>
    simp only [exec] at hgo
    split_ifs at hgo
    cases hgo
    exact h
  | setReg i v =>
    simp only [exec] at hgo
    split_ifs at hgo
    cases hgo
    refine h.stayStack (L := s.L.set (s.L.base + i) v) rfl rfl rfl h.top rfl rfl rfl fun p hp => ?_
    have hne : p ≠ s.L.base + i := by omega
    simp only [Stack.get, Stack.set, Stack.withStack, put, if_neg hne]
  | setTop n =>
    simp only [exec] at hgo
    split_ifs at hgo
    cases hgo
    exact h.stayStack (L := { s.L with top := s.L.base + n }) rfl rfl rfl (Nat.le_add_right _ _) rfl rfl
      rfl fun _ _ => rfl
  | push v =>
    cases hgo
    have htop := h.top
    refine h.stayStack (L := s.L.push v) rfl rfl rfl (Nat.le_succ_of_le htop) rfl rfl rfl fun p hp => ?_
    have hne : p ≠ s.L.top := by omega
    simp only [Stack.get, Stack.push, Stack.set, Stack.withStack, put, if_neg hne]
  | gettop =>
    cases hgo
    exact h
  | getUpval u =>
    simp only [exec] at hgo
    cases hu : s.L.readUpval u with
    | none => simp [hu] at hgo
    | some v =>
      simp only [hu] at hgo
      cases hgo
      exact h
  | setUpval u v =>
    simp only [exec] at hgo
    cases hu : s.L.readUpval u with
    | none => simp [hu] at hgo
    | some w =>
      simp only [hu] at hgo
      cases hgo
      exact h.write u v
  | findupval i addr =>
    simp only [exec] at hgo
    split_ifs at hgo with hguard
    cases hgo
    exact h.findupval i (Option.isNone_iff_eq_none.mp hguard.2.2)
  | close i =>
    cases hgo
    exact h.close _
  | getTable r =>
    cases hgo
    exact h
  | setTable r t =>
    cases hgo
    exact h.stayStack (L := s.L.setTable r t) rfl rfl rfl h.top rfl rfl rfl fun _ _ => rfl
  | vararg a b =>
    simp only [exec] at hgo
    cases hp : H.protoOf (s.L.funcAt s.L.ci) with
    | none => simp [hp] at hgo
    | some p =>
      simp only [hp] at hgo
      split_ifs at hgo with hguard
      cases hgo
      rw [opVararg_eq hguard.1 h.base]
      refine h.stayFill (Nat.le_add_right _ _) ?_
      have htop := h.top
      split_ifs <;> omega
  | opCall tm addr pc a b c msg =>
    simp only [exec] at hgo
    split_ifs at hgo with hguard
    have hL := h.withArguments pc a b hguard.2.1
    have hra : (s.withL { setArguments a b s.L with savedpc := pc }).L.base ≤ s.L.base + a := by
      simp only [State.withL, setArguments_base]
      omega
    exact enter_within h (fun e M hr => hL.enter hra (opCall_entry hguard.2.1 hr)) hgo
  | luaDCall tm addr a nresults msg =>
    simp only [exec] at hgo
    split_ifs at hgo with hguard
    exact enter_within h (fun e M hr => h.enter (Nat.le_add_right _ _) (luaDPrecall_entry hguard hr))
      hgo
  | tailcall tm addr pc a b msg =>
    simp only [exec] at hgo
    split_ifs at hgo with hguard
    obtain ⟨hlua, hun, ha, -⟩ := hguard
    have hL := h.withArguments pc a b ha
    refine enter_within h (fun e M' hr => ?_) hgo
    obtain ⟨M, hM, rfl⟩ := opTailcall_entry ha hr
    have hbase : (s.withL { setArguments a b s.L with savedpc := pc }).L.base ≤ s.L.base + a := by
      simp only [State.withL, setArguments_base]
      omega
    have hun' : (s.withL { setArguments a b s.L with savedpc := pc }).unprotected = true := by
      rw [setArguments_eq]
      exact hun
    have hlua' : (s.withL { setArguments a b s.L with savedpc := pc }).L.isLua H = true := by
      rw [setArguments_eq]
      exact hlua
    split_ifs
    · exact hL.replace hbase hM hun' hlua' ‹_›
    · exact hL.enter hbase hM
  | opReturn pc a b =>
    simp only [exec] at hgo
    split_ifs at hgo with hguard
    obtain ⟨-, hun, hfits⟩ := hguard
    rw [opReturn_eq] at hgo
    have hclosed := h.closeFrame pc a b
    exact leave_within hclosed hun (Nat.le_add_right s.L.base a) hgo
  | returnC n =>
    simp only [exec] at hgo
    split_ifs at hgo with hguard
    obtain ⟨-, hun, hn⟩ := hguard
    exact leave_within h hun (by omega) hgo
  | getstack level =>
    cases hgo
    exact h
  | pcall a =>
    simp only [exec] at hgo
    split_ifs at hgo with hguard
    cases hgo
    obtain ⟨hs, heq, hsorted, hin⟩ := h.handlers
    refine ⟨h.ordered, h.ci, h.base, h.top, h.func, h.nested, h.isOpen,
      ⟨⟨s.L.ci, s.L.base + a⟩ :: hs, by simp [heq], ?_, ?_⟩, h.lower, h.place, h.tailcalls, h.isLua, h.same⟩
    · exact List.pairwise_cons.mpr ⟨fun x hx => (hin x hx).2.1, hsorted⟩
    · intro x hx
      rcases List.mem_cons.mp hx with rfl | hx
      · have hbase := h.base
        rw [Stack.frame] at hbase
        exact ⟨h.ci, Nat.le_refl _, by simp only; omega⟩
      · exact hin x hx
  | endPcall =>
    simp only [exec] at hgo
    obtain ⟨hs, heq, hsorted, hin⟩ := h.handlers
    cases hs with
    | nil =>
      rw [List.nil_append] at heq
      cases outer with
      | nil => simp [heq] at hgo
      | cons x rest =>
        simp only [heq, List.length_cons] at hgo
        split_ifs at hgo with hlen
        exact absurd hlen.2 (Nat.not_succ_le_self _)
    | cons x hs =>
      simp only [heq, List.cons_append] at hgo
      split_ifs at hgo
      cases hgo
      exact ⟨h.ordered, h.ci, h.base, h.top, h.func, h.nested, h.isOpen,
        ⟨hs, rfl, (List.pairwise_cons.mp hsorted).2, fun y hy => hin y (List.mem_cons_of_mem _ hy)⟩,
        h.lower, h.place, h.tailcalls, h.isLua, h.same⟩
  | throw v => exact raise_within h hgo

/-- The run lemma. -/
theorem run_within {code : Code N} {n : Nat} {seen : List (Observed N)} (h : Within H E outer s)
    (hgo : run H code E.ci outer.length n seen s = .go o s') : Within H E outer s' := by
  induction n generalizing seen s with
  | zero =>
    cases hgo
    exact h
  | succ n ih =>
    rw [run] at hgo
    cases hexec : exec H E.ci outer.length s (code seen) with
    | go o' s1 =>
      simp only [hexec] at hgo
      exact ih (exec_within _ h hexec) hgo
    | returned b s1 => simp [hexec] at hgo
    | raised v => simp [hexec] at hgo
    | overflow => simp [hexec] at hgo
    | stuck => simp [hexec] at hgo

omit [LuaNumber N] in
/-- A function begins within its frame. -/
theorem Entry.within {L : Stack N} {ra : Nat} {wanted : Int} {e : Entered}
    (hE : Entry H L ra wanted e E) (hord : L.up.Ordered) (hopen : ∀ u l, L.up.OpenAt u l → l < ra) :
    Within H E outer ⟨E, outer⟩ := by
  have hat : ∀ u l, E.up.OpenAt u l ↔ L.up.OpenAt u l := by
    intro u l
    simp only [OpenAt, hE.heap]
  refine ⟨hord.congr hat hE.openupval hE.uvhead, Nat.le_refl _, hE.base, hE.top, ?_, ?_, ?_,
    ⟨[], rfl, List.Pairwise.nil, by simp⟩, fun _ _ => rfl, ⟨rfl, rfl⟩, Nat.le_refl _, rfl,
    fun _ => ⟨rfl, fun _ _ _ => rfl⟩⟩
  · intro i hi hle
    have heq : i = E.ci := Nat.le_antisymm hle hi
    have hlt := hE.lt
    rw [hE.base, ← hE.func] at hlt
    rw [heq]
    exact ⟨Nat.le_refl _, hlt⟩
  · intro i hi hlt
    exact absurd hlt (Nat.not_lt.mpr hi)
  · intro u l hl
    rw [hE.func]
    exact .inl (hopen u l ((hat u l).mp hl))

end Steps

end UgmeeLua.Calls

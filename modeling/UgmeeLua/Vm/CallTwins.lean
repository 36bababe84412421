import UgmeeLua.Vm.CallInvariant

namespace UgmeeLua.Calls

open Block Ltable Upvalues

variable {N : Type}

/-- What an upvalue is in a thread without the places from `f` to `f + d`: one that is open there is
closed, and one that is open above is open further down. -/
def movedUpval (f d : Nat) (up : Upvalues N) (u : Nat) : Option (UpVal N) :=
  match up.heap u with
  | some uv =>
    match uv.v with
    | .stack l =>
      if l < f then some uv
      else if l < f + d then
        if uv.dead then none else some { uv with value := up.stack l, v := .own }
      else some { uv with v := .stack (l - d) }
    | .own => some uv
  | none => none

section Moved

variable {f d : Nat} {up : Upvalues N} {u l : Nat} {uv : UpVal N}

theorem movedUpval_own (hu : up.heap u = some uv) (hv : uv.v = .own) :
    movedUpval f d up u = some uv := by
  simp only [movedUpval, hu, hv]

theorem movedUpval_below (hu : up.heap u = some uv) (hv : uv.v = .stack l) (hl : l < f) :
    movedUpval f d up u = some uv := by
  simp only [movedUpval, hu, hv, if_pos hl]

theorem movedUpval_closed (hu : up.heap u = some uv) (hv : uv.v = .stack l) (hlow : f ≤ l)
    (hl : l < f + d) : movedUpval f d up u =
      if uv.dead then none else some { uv with value := up.stack l, v := .own } := by
  simp only [movedUpval, hu, hv, if_neg (Nat.not_lt.mpr hlow), if_pos hl]

theorem movedUpval_above (hu : up.heap u = some uv) (hv : uv.v = .stack l) (hl : f + d ≤ l) :
    movedUpval f d up u = some { uv with v := .stack (l - d) } := by
  have hlow : ¬ l < f := by omega
  simp only [movedUpval, hu, hv, if_neg hlow, if_neg (Nat.not_lt.mpr hl)]

theorem movedUpval_none (hu : up.heap u = none) : movedUpval f d up u = none := by
  simp only [movedUpval, hu]

end Moved

/-- Two threads of which the first has `d` more places at `f`; up to `hi` the second holds what the
first one holds above them. -/
structure Twin (f d hi : Nat) (L L' : Stack N) : Prop where
  top : L.top = L'.top + d
  le : L'.top ≤ hi
  stack : Shifted f hi d L.up.stack L'.up.stack
  below : ∀ s < f, L.get s = L'.get s
  heap : ∀ u, L'.up.heap u = movedUpval f d L.up u
  levels : ∀ u l, L.up.OpenAt u l → l < f + d ∨ l < hi + d
  ordered : L.up.Ordered
  ordered' : L'.up.Ordered
  tables : L.tables = L'.tables

namespace Twin

variable {f d hi : Nat} {L L' M M' : Stack N}

theorem get (h : Twin f d hi L L') {s : Nat} (hlow : f ≤ s) (hs : s < hi) : L.get (s + d) = L'.get s :=
  h.stack s hlow hs

/-- The frames are free. -/
theorem congr (h : Twin f d hi L L') (hup : M.up = L.up) (htop : M.top = L.top)
    (htables : M.tables = L.tables) (hup' : M'.up = L'.up) (htop' : M'.top = L'.top)
    (htables' : M'.tables = L'.tables) : Twin f d hi M M' := by
  refine ⟨?_, ?_, ?_, ?_, ?_, ?_, ?_, ?_, ?_⟩
  · rw [htop, htop', h.top]
  · rw [htop']
    exact h.le
  · rw [hup, hup']
    exact h.stack
  · simp only [Stack.get, hup, hup']
    exact h.below
  · rw [hup, hup']
    exact h.heap
  · rw [hup]
    exact h.levels
  · rw [hup]
    exact h.ordered
  · rw [hup']
    exact h.ordered'
  · rw [htables, htables', h.tables]

theorem withTop (h : Twin f d hi L L') (top : Nat) (hle : top ≤ hi) :
    Twin f d hi { L with top := top + d } { L' with top := top } :=
  ⟨rfl, hle, h.stack, h.below, h.heap, h.levels, h.ordered, h.ordered', h.tables⟩

theorem withTable (h : Twin f d hi L L') (r : Nat) (t : Table N) :
    Twin f d hi (L.setTable r t) (L'.setTable r t) := by
  refine ⟨h.top, h.le, h.stack, h.below, h.heap, h.levels, h.ordered, h.ordered', ?_⟩
  simp only [Stack.setTable, h.tables]

/-- The upvalues that are moved depend on the places below alone. -/
theorem movedUpval_congr {up up' : Upvalues N} (hheap : up'.heap = up.heap)
    (hlow : ∀ s < f + d, up'.stack s = up.stack s) (u : Nat) :
    movedUpval f d up' u = movedUpval f d up u := by
  simp only [movedUpval, hheap]
  cases up.heap u with
  | none => rfl
  | some uv =>
    cases hv : uv.v with
    | own => simp only [hv]
    | stack l =>
      simp only [hv]
      split_ifs with h1 h2
      · rfl
      · rfl
      · rw [hlow l h2]
      · rfl

/-- The same block of values in both, each at its place. -/
theorem withFill (h : Twin f d hi L L') {dst : Nat} (n : Nat) {g g' : Nat → TValue N} (hlow : f ≤ dst)
    (hdst : dst ≤ hi) (hg : ∀ i < n, g i = g' i) :
    Twin f d (max hi (dst + n)) (L.withStack fun m => fill m (dst + d) n g)
      (L'.withStack fun m => fill m dst n g') := by
  have hle := h.le
  refine ⟨h.top, ?_, h.stack.fill hdst hg, fun s hs => ?_, fun u => ?_, fun u l hl => ?_, ?_, ?_,
    h.tables⟩
  · simp only [withStack_top]
    omega
  · have hout : fill L.up.stack (dst + d) n g s = _ := fill_out (.inl (by omega))
    have hout' : fill L'.up.stack dst n g' s = _ := fill_out (.inl (by omega))
    exact hout.trans ((h.below s hs).trans hout'.symm)
  · have hheap : (L.withStack fun m => fill m (dst + d) n g).up.heap = L.up.heap := rfl
    have hsame := movedUpval_congr (f := f) (d := d) hheap
      (fun s hs => fill_out (.inl (by omega))) u
    rw [withStack_heap, h.heap u]
    exact hsame.symm
  · rcases h.levels u l hl with hlt | hlt
    · exact .inl hlt
    · exact .inr (by omega)
  · exact h.ordered.congr (fun _ _ => Iff.rfl) rfl rfl
  · exact h.ordered'.congr (fun _ _ => Iff.rfl) rfl rfl

theorem withConst (h : Twin f d hi L L') {dst : Nat} (n : Nat) (hlow : f ≤ dst) (hdst : dst ≤ hi)
    (v : TValue N) :
    Twin f d (max hi (dst + n)) (L.withStack fun m => fill m (dst + d) n fun _ => v)
      (L'.withStack fun m => fill m dst n fun _ => v) :=
  h.withFill n hlow hdst fun _ _ => rfl

theorem set_eq (L : Stack N) (s : Nat) (v : TValue N) :
    L.set s v = L.withStack fun m => fill m s 1 fun _ => v := by
  simp only [Stack.set, Stack.withStack, put_eq_fill]

theorem withSet (h : Twin f d hi L L') {s : Nat} (hlow : f ≤ s) (hs : s ≤ hi) (v : TValue N) :
    Twin f d (max hi (s + 1)) (L.set (s + d) v) (L'.set s v) := by
  rw [set_eq, set_eq]
  exact h.withConst 1 hlow hs v

theorem withPush (h : Twin f d hi L L') (hlow : f ≤ L'.top) (v : TValue N) :
    Twin f d (max hi (L'.top + 1)) (L.push v) (L'.push v) := by
  have hset := h.withSet hlow h.le v
  have hpush := hset.withTop (L'.top + 1) (by omega)
  have htop : L.top + 1 = L'.top + 1 + d := by
    rw [h.top]
    omega
  simp only [Stack.push, htop]
  rw [h.top]
  exact hpush

/-- An upvalue is open at the same place in both. -/
theorem openAt (h : Twin f d hi L L') {u l : Nat} :
    L'.up.OpenAt u l ↔ if l < f then L.up.OpenAt u l else L.up.OpenAt u (l + d) := by
  simp only [OpenAt, h.heap]
  cases hu : L.up.heap u with
  | none => simp [movedUpval_none hu]
  | some uv =>
    cases hv : uv.v with
    | own =>
      rw [movedUpval_own hu hv]
      simp [hv]
    | stack m =>
      rcases Nat.lt_or_ge m f with hm | hm
      · rw [movedUpval_below hu hv hm]
        simp only [Option.some.injEq, exists_eq_left', hv, Home.stack.injEq]
        split_ifs <;> omega
      · rcases Nat.lt_or_ge m (f + d) with hm' | hm'
        · rw [movedUpval_closed hu hv hm hm']
          cases uv.dead <;> simp [hv] <;> split_ifs <;> omega
        · rw [movedUpval_above hu hv hm']
          simp only [Option.some.injEq, exists_eq_left', hv, Home.stack.injEq]
          split_ifs <;> omega

theorem close (h : Twin f d hi L L') {level : Nat} (hlow : f ≤ level) :
    Twin f d hi { L with up := luaFClose L.up (level + d) } { L' with up := luaFClose L'.up level } := by
  obtain ⟨hord, hstack, hheap⟩ := luaFClose_spec h.ordered (level + d)
  obtain ⟨hord', hstack', hheap'⟩ := luaFClose_spec h.ordered' level
  refine ⟨h.top, h.le, ?_, ?_, fun u => ?_, fun u l hl => ?_, hord, hord', h.tables⟩
  · rw [hstack, hstack']
    exact h.stack
  · simp only [Stack.get, hstack, hstack']
    exact h.below
  · have hclosed := hheap u
    simp only [hheap', closedHeap, h.heap u]
    cases hu : L.up.heap u with
    | none =>
      simp only [closedHeap, hu] at hclosed
      rw [movedUpval_none hu, movedUpval_none hclosed]
    | some uv =>
      cases hv : uv.v with
      | own =>
        simp only [closedHeap, hu, hv] at hclosed
        rw [movedUpval_own hu hv, movedUpval_own hclosed hv]
        simp only [hv]
      | stack m =>
        rw [closedHeap_open _ hu hv] at hclosed
        rcases Nat.lt_or_ge m f with hm | hm
        · rw [if_neg (by omega)] at hclosed
          rw [movedUpval_below hu hv hm, movedUpval_below hclosed hv hm]
          simp only [hv, if_neg (by omega : ¬ level ≤ m)]
        · rcases Nat.lt_or_ge m (f + d) with hm' | hm'
          · rw [if_neg (by omega)] at hclosed
            rw [movedUpval_closed hu hv hm hm', movedUpval_closed hclosed hv hm hm', hstack]
            cases uv.dead <;> simp
          · have hvalue : L.up.stack m = L'.up.stack (m - d) := by
              have hlevel := h.levels u m ⟨uv, hu, hv⟩
              have hplace : m - d + d = m := by omega
              have hget := h.get (s := m - d) (by omega) (by omega)
              rw [hplace] at hget
              exact hget
            have hiff : level + d ≤ m ↔ level ≤ m - d := by omega
            rw [movedUpval_above hu hv hm']
            simp only [hiff, hvalue] at hclosed ⊢
            split_ifs at hclosed ⊢ with hge hdead
            · rw [movedUpval_none hclosed]
            · rw [movedUpval_own hclosed rfl]
            · rw [movedUpval_above hclosed hv hm']
  · exact h.levels u l ((openAt_luaFClose h.ordered).mp hl).1

theorem readUpval (h : Twin f d hi L L') {u : Nat} {v : TValue N} (hread : L.readUpval u = some v) :
    L'.readUpval u = some v := by
  unfold Stack.readUpval Upvalues.read at hread ⊢
  rw [h.heap u]
  cases hu : L.up.heap u with
  | none => simp [hu] at hread
  | some uv =>
    cases hdead : uv.dead with
    | true => simp [hu, hdead] at hread
    | false =>
      simp only [hu, Option.any_some, hdead, Bool.false_eq_true, if_false] at hread
      cases hv : uv.v with
      | own =>
        simp only [hv] at hread
        rw [movedUpval_own hu hv]
        simp [hdead, hv, hread]
      | stack m =>
        simp only [hv, Option.some.injEq] at hread
        rcases Nat.lt_or_ge m f with hm | hm
        · rw [movedUpval_below hu hv hm]
          have hget : L.up.stack m = L'.up.stack m := h.below m hm
          simp [hdead, hv, ← hread, hget]
        · rcases Nat.lt_or_ge m (f + d) with hm' | hm'
          · rw [movedUpval_closed hu hv hm hm']
            simp [hdead, hread]
          · have hlevel := h.levels u m ⟨uv, hu, hv⟩
            have hplace : m - d + d = m := by omega
            have hget := h.get (s := m - d) (by omega) (by omega)
            rw [hplace] at hget
            have hget' : L.up.stack m = L'.up.stack (m - d) := hget
            rw [movedUpval_above hu hv hm']
            simp [hdead, ← hread, hget']

end Twin

/-- The second of two computations ends as the first one does, which may find the frames full. -/
def Follows {α : Type} (P : α → α → Prop) :
    Except (CallError N) α → Except (CallError N) α → Prop
  | .ok a, r => ∃ b, r = .ok b ∧ P a b
  | .error .overflow, _ => True
  | .error e, r => r = .error e

section Follows

variable {α β : Type} {P : α → α → Prop} {Q : β → β → Prop} {r r' : Except (CallError N) α}

theorem follows_ok {a b : α} (h : P a b) : Follows P (.ok a : Except (CallError N) α) (.ok b) :=
  ⟨b, rfl, h⟩

theorem follows_error (e : CallError N) : Follows P (.error e : Except (CallError N) α) (.error e) := by
  cases e <;> first | rfl | trivial

theorem Follows.bind {k k' : α → Except (CallError N) β} (h : Follows P r r')
    (hk : ∀ a b, r = .ok a → r' = .ok b → P a b → Follows Q (k a) (k' b)) :
    Follows Q (r >>= k) (r' >>= k') := by
  cases r with
  | ok a =>
    obtain ⟨b, rfl, hab⟩ := h
    exact hk a b rfl rfl hab
  | error e =>
    cases e with
    | overflow => trivial
    | typeerror o op =>
      have hr : r' = .error (.typeerror o op) := h
      rw [hr]
      exact follows_error _
    | table e =>
      have hr : r' = .error (.table e) := h
      rw [hr]
      exact follows_error _

theorem Follows.mono {P' : α → α → Prop} (h : Follows P r r') (himp : ∀ a b, P a b → P' a b) :
    Follows P' r r' := by
  cases r with
  | ok a =>
    obtain ⟨b, rfl, hab⟩ := h
    exact ⟨b, rfl, himp a b hab⟩
  | error e => cases e <;> exact h

end Follows

section Entering

variable [LuaNumber N] {H : Host N} {f d hi : Nat} {L L' : Stack N}

theorem argLoop_congr {extra extra' : Nat → TValue N} (is : List Nat) (t : Table N)
    (h : ∀ i ∈ is, extra i = extra' i) : argLoop H extra is t = argLoop H extra' is t := by
  induction is generalizing t with
  | nil => rfl
  | cons i is ih =>
    have hrest : ∀ t, argLoop H extra is t = argLoop H extra' is t := fun t =>
      ih t fun j hj => h j (List.mem_cons_of_mem _ hj)
    simp only [argLoop, h i List.mem_cons_self, hrest]

theorem argTable_congr {extra extra' : Nat → TValue N} {n : Nat} (h : ∀ i < n, extra i = extra' i) :
    argTable H extra n = argTable H extra' n := by
  have hloop : ∀ t, argLoop H extra (List.range n) t = argLoop H extra' (List.range n) t := fun t =>
    argLoop_congr _ t fun i hi => h i (List.mem_range.mp hi)
  simp only [argTable, hloop]

omit [LuaNumber N] in
theorem Twin.padArguments (h : Twin f d hi L L') (hlow : f ≤ L'.top) (n : Nat) :
    Twin f d (max hi (L'.top + n)) (padArguments n L) (padArguments n L') := by
  have hfill := h.withConst n hlow h.le .nil
  have hend := hfill.withTop (L'.top + n) (by omega)
  have htop : L.top + n = L'.top + n + d := by
    rw [h.top]
    omega
  rw [padArguments_eq, padArguments_eq, htop, h.top]
  exact hend

omit [LuaNumber N] in
theorem Twin.raiseFixed (h : Twin f d hi L L') {p : Proto N} {ra : Nat} (hlow : f ≤ ra)
    (hra : ra + 1 + p.numparams ≤ L'.top) :
    Twin f d (max hi (L'.top + p.numparams)) (raiseFixed p (ra + d) L) (raiseFixed p ra L') := by
  have hle := h.le
  have hvals : ∀ j < p.numparams, L.get (ra + 1 + d + j) = L'.get (ra + 1 + j) := by
    intro j hj
    have hplace : ra + 1 + d + j = ra + 1 + j + d := by omega
    rw [hplace]
    exact h.get (by omega) (by omega)
  have hplaces : f ≤ L'.top ∧ f ≤ ra + 1 ∧ ra + 1 ≤ max hi (L'.top + p.numparams) := by omega
  have hfill := h.withFill p.numparams hplaces.1 hle hvals
  have hnil := hfill.withConst p.numparams hplaces.2.1 hplaces.2.2 .nil
  have hhi : max (max hi (L'.top + p.numparams)) (ra + 1 + p.numparams) =
      max hi (L'.top + p.numparams) := by omega
  rw [hhi] at hnil
  have hend := hnil.withTop (L'.top + p.numparams) (by omega)
  have htop : L.top + p.numparams = L'.top + p.numparams + d := by
    rw [h.top]
    omega
  have hplace : ra + d + 1 = ra + 1 + d := by omega
  simp only [Calls.raiseFixed, htop]
  rw [h.top, hplace]
  exact hend

/-- What the functions that adjust arguments agree on: the base, and the thread that they leave. -/
def TwinBase (f d hi : Nat) (r r' : Nat × Stack N) : Prop :=
  r.1 = r'.1 + d ∧ ∃ hi', hi ≤ hi' ∧ Twin f d hi' r.2 r'.2

theorem Twin.adjustVarargs (h : Twin f d hi L L') (addr : Nat) (p : Proto N) {ra : Nat} (hlow : f ≤ ra)
    (hra : ra < L'.top) :
    Follows (TwinBase f d hi) (adjustVarargs H addr p (L.top - (ra + d) - 1) L)
      (adjustVarargs H addr p (L'.top - ra - 1) L') := by
  have hcount : L.top - (ra + d) - 1 = L'.top - ra - 1 := by
    rw [h.top]
    omega
  have hpad := h.padArguments (by omega) (p.numparams - (L'.top - ra - 1))
  have htop := padArguments_top p hra
  rw [adjustVarargs_eq (by rw [h.top]; omega), adjustVarargs_eq hra, hcount]
  generalize Calls.padArguments (p.numparams - (L'.top - ra - 1)) L = M at hpad
  generalize Calls.padArguments (p.numparams - (L'.top - ra - 1)) L' = M' at hpad htop ⊢
  have hle := hpad.le
  simp only
  by_cases hneeds : p.needsArg = true
  · have hextra : argTable H (fun i => M.get (ra + d + 1 + p.numparams + i)) (L'.top - ra - 1 - p.numparams) =
        argTable H (fun i => M'.get (ra + 1 + p.numparams + i)) (L'.top - ra - 1 - p.numparams) := by
      refine argTable_congr fun i hi => ?_
      have hplace : ra + d + 1 + p.numparams + i = ra + 1 + p.numparams + i + d := by omega
      simp only [hplace]
      exact hpad.get (by omega) (by omega)
    rw [if_pos hneeds, if_pos hneeds, hextra]
    cases argTable H (fun i => M'.get (ra + 1 + p.numparams + i)) (L'.top - ra - 1 - p.numparams) with
    | error e => exact follows_error _
    | ok htab =>
      have hraise := (hpad.withTable addr htab).raiseFixed (p := p) hlow (by simp only [Stack.setTable]; omega)
      have hpush := hraise.withPush (by simp only [Calls.raiseFixed, Stack.setTable]; omega) (.table addr)
      exact follows_ok ⟨hpad.top, _, by simp only [Stack.setTable]; omega, hpush⟩
  · rw [if_neg hneeds, if_neg hneeds]
    have hraise := hpad.raiseFixed (p := p) hlow (by omega)
    exact follows_ok ⟨hpad.top, _, by omega, hraise⟩

theorem Twin.adjustArguments (h : Twin f d hi L L') (addr : Nat) (p : Proto N) {ra : Nat} (hlow : f ≤ ra)
    (hra : ra < L'.top) :
    Follows (TwinBase f d hi) (adjustArguments H addr p (ra + d) L) (adjustArguments H addr p ra L') := by
  rw [Calls.adjustArguments, Calls.adjustArguments]
  by_cases hvararg : p.isVararg = 0
  · rw [if_pos hvararg, if_pos hvararg]
    have hle := h.le
    refine follows_ok ⟨by simp only; omega, hi, Nat.le_refl _, ?_⟩
    have htop := h.top
    have hplace : ra + d + 1 + p.numparams = ra + 1 + p.numparams + d := by omega
    simp only [hplace]
    by_cases hcut : L'.top > ra + 1 + p.numparams
    · rw [if_pos (by omega), if_pos hcut]
      exact h.withTop _ (by omega)
    · rw [if_neg (by omega), if_neg hcut]
      exact h
  · rw [if_neg hvararg, if_neg hvararg]
    exact h.adjustVarargs addr p hlow hra

/-- What two calls of a function agree on. -/
structure TwinEntry (f d hi : Nat) (r r' : Entered × Stack N) : Prop where
  entered : r.1 = r'.1
  twin : ∃ hi', hi ≤ hi' ∧ Twin f d hi' r.2 r'.2
  base : r.2.base = r'.2.base + d
  top : r.2.frame.top = r'.2.frame.top + d

omit [LuaNumber N] in
theorem Twin.enterLua (h : Twin f d hi L L') (p : Proto N) (ra base : Nat) (hlow : f ≤ L'.top)
    (nresults : Int) :
    TwinEntry f d hi (.PCRLUA, enterLua p (ra + d) (base + d) nresults L)
      (.PCRLUA, enterLua p ra base nresults L') := by
  have hle := h.le
  have hcount : base + d + p.maxstacksize - L.top = base + p.maxstacksize - L'.top := by
    rw [h.top]
    omega
  have hplace : base + d + p.maxstacksize = base + p.maxstacksize + d := by omega
  have hnil := h.withConst (base + p.maxstacksize - L'.top) hlow hle .nil
  have hend := hnil.withTop (base + p.maxstacksize) (by omega)
  refine ⟨rfl, ⟨_, Nat.le_max_left _ _, hend.congr ?_ hplace rfl ?_ rfl rfl⟩, rfl, ?_⟩
  · simp only [Calls.enterLua, Stack.withStack, putUp_eq, Stack.setFrame]
    rw [hcount, h.top]
  · simp only [Calls.enterLua, Stack.withStack, putUp_eq, Stack.setFrame]
  · simp only [Calls.enterLua, Stack.frame, Stack.setFrame, withStack_ci, withStack_frames, if_true]
    exact hplace

omit [LuaNumber N] in
theorem Twin.enterC (h : Twin f d hi L L') {ra : Nat} (nresults : Int) :
    TwinEntry f d hi (.PCRC, enterC (ra + d) nresults L) (.PCRC, enterC ra nresults L') := by
  have hbase : ra + d + 1 = ra + 1 + d := by omega
  refine ⟨rfl, ⟨hi, Nat.le_refl _, h.congr rfl rfl rfl rfl rfl rfl⟩, hbase, ?_⟩
  have htop := h.top
  simp only [Calls.enterC, Stack.frame, Stack.setFrame, if_true]
  omega

omit [LuaNumber N] in
theorem follows_incCi (hci : L.ci = L'.ci + 1) :
    Follows (fun M M' => M = { L with ci := L.ci + 1 } ∧ M' = { L' with ci := L'.ci + 1 })
      (incCi H L) (incCi H L') := by
  unfold incCi
  by_cases hroom : L.ci + 1 < H.limit
  · rw [if_pos hroom, if_pos (by omega)]
    exact follows_ok ⟨rfl, rfl⟩
  · rw [if_neg hroom]
    trivial

theorem Twin.precallFunction (h : Twin f d hi L L') (hci : L.ci = L'.ci + 1) (addr : Nat) {ra : Nat}
    (hlow : f ≤ ra) (hra : ra < L'.top) (nresults : Int) :
    Follows (TwinEntry f d hi) (precallFunction H addr (ra + d) nresults L)
      (precallFunction H addr ra nresults L') := by
  have hle := h.le
  have htop := h.top
  have hget : L.get (ra + d) = L'.get ra := h.get hlow (by omega)
  have hsave : Twin f d hi (L.setFrame L.ci { L.frame with savedpc := L.savedpc })
      (L'.setFrame L'.ci { L'.frame with savedpc := L'.savedpc }) := h.congr rfl rfl rfl rfl rfl rfl
  rw [Calls.precallFunction, Calls.precallFunction]
  simp only
  generalize hS : L.setFrame L.ci { L.frame with savedpc := L.savedpc } = S at hsave ⊢
  generalize hS' : L'.setFrame L'.ci { L'.frame with savedpc := L'.savedpc } = S' at hsave ⊢
  have hfun : S.get (ra + d) = S'.get ra := by
    rw [← hS, ← hS']
    exact hget
  have hSci : S.ci = S'.ci + 1 := by
    rw [← hS, ← hS']
    exact hci
  have hStop : ra + d < S.top ∧ ra < S'.top := by
    rw [← hS, ← hS', setFrame_top, setFrame_top]
    omega
  rw [hfun]
  cases hcl : H.closureOf (S'.get ra) with
  | none => exact follows_error _
  | some cl =>
    cases cl with
    | lua p =>
      refine (hsave.adjustArguments addr p hlow hStop.2).bind fun a b ha hb hab => ?_
      obtain ⟨habove, -, -⟩ := adjustArguments_above hStop.1 ha
      obtain ⟨habove', hlt, hbase⟩ := adjustArguments_above hStop.2 hb
      obtain ⟨hab1, hi', hhi, htwin⟩ := hab
      have hMci : a.2.ci = b.2.ci + 1 := by
        rw [habove.ci, habove'.ci]
        exact hSci
      refine (follows_incCi hMci).bind fun M M' _ _ hM => ?_
      obtain ⟨rfl, rfl⟩ := hM
      have hlater : Twin f d hi' { a.2 with ci := a.2.ci + 1 } { b.2 with ci := b.2.ci + 1 } :=
        htwin.congr rfl rfl rfl rfl rfl rfl
      have henter := hlater.enterLua p ra b.1 (by simp only; omega) nresults
      rw [hab1]
      exact follows_ok ⟨rfl, henter.twin.imp fun _ hlast => ⟨Nat.le_trans hhi hlast.1, hlast.2⟩,
        henter.base, henter.top⟩
    | c =>
      refine (follows_incCi hSci).bind fun M M' _ _ hM => ?_
      obtain ⟨rfl, rfl⟩ := hM
      have hlater : Twin f d hi { S with ci := S.ci + 1 } { S' with ci := S'.ci + 1 } :=
        hsave.congr rfl rfl rfl rfl rfl rfl
      exact follows_ok (hlater.enterC nresults)

omit [LuaNumber N] in
theorem Twin.tryfuncTM (h : Twin f d hi L L') (tm : TValue N) {ra : Nat} (hlow : f ≤ ra)
    (hra : ra < L'.top) :
    Follows (fun M M' => ∃ hi', hi ≤ hi' ∧ Twin f d hi' M M') (tryfuncTM tm (ra + d) L)
      (tryfuncTM tm ra L') := by
  have hle := h.le
  by_cases hfun : tm.ttype = .LUA_TFUNCTION
  · have hcount : L.top - (ra + d) = L'.top - ra := by
      rw [h.top]
      omega
    have hvals : ∀ i < L'.top - ra, L.get (ra + d + i) = L'.get (ra + i) := by
      intro i hi
      have hplace : ra + d + i = ra + i + d := by omega
      rw [hplace]
      exact h.get (by omega) (by omega)
    have hplaces : f ≤ ra + 1 ∧ ra + 1 ≤ hi := by omega
    have hmove := h.withFill (L'.top - ra) hplaces.1 hplaces.2 hvals
    have hset := hmove.withConst 1 hlow (by omega) tm
    have hend := hset.withTop (L'.top + 1) (by omega)
    have htop : L.top + 1 = L'.top + 1 + d := by
      rw [h.top]
      omega
    have hplace : ra + d + 1 = ra + 1 + d := by omega
    rw [tryfuncTM_eq hfun, tryfuncTM_eq hfun, hcount, htop, hplace]
    exact follows_ok ⟨_, by omega, hend⟩
  · have hget : L.get (ra + d) = L'.get ra := h.get hlow (by omega)
    simp only [Calls.tryfuncTM, ne_eq, hfun, not_false_eq_true, if_true, hget]
    exact follows_error _

/-- The same function is called with the same arguments. -/
theorem Twin.luaDPrecall (h : Twin f d hi L L') (hci : L.ci = L'.ci + 1) (tm : TValue N) (addr : Nat)
    {ra : Nat} (hlow : f ≤ ra) (hra : ra < L'.top) (nresults : Int) :
    Follows (TwinEntry f d hi) (luaDPrecall H tm addr (ra + d) nresults L)
      (luaDPrecall H tm addr ra nresults L') := by
  have hle := h.le
  have hget : L.get (ra + d) = L'.get ra := h.get hlow (by omega)
  rw [Calls.luaDPrecall, Calls.luaDPrecall, hget]
  split_ifs with hfun
  · exact h.precallFunction hci addr hlow hra nresults
  · refine (h.tryfuncTM tm hlow hra).bind fun M M' hM hM' htwin => ?_
    obtain ⟨hi', hhi, htwin⟩ := htwin
    obtain ⟨habove, -⟩ := tryfuncTM_above hM
    obtain ⟨habove', htop'⟩ := tryfuncTM_above hM'
    have hMci : M.ci = M'.ci + 1 := by
      rw [habove.ci, habove'.ci]
      exact hci
    have hcall := htwin.precallFunction (H := H) hMci addr hlow (by omega) nresults
    exact hcall.mono fun a b hab =>
      ⟨hab.entered, hab.twin.imp fun _ hlast => ⟨Nat.le_trans hhi hlast.1, hlast.2⟩, hab.base, hab.top⟩

end Entering

end UgmeeLua.Calls

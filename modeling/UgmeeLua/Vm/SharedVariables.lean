import UgmeeLua.Lib.Run
import UgmeeLua.Vm.OpenList

namespace UgmeeLua

open Run Upvalues

variable {N : Type}

/-- A local variable: its slot, and how often the slot has been closed before. -/
structure Variable where
  slot : Nat
  age : Nat
  deriving DecidableEq, Repr

/-- The variables as a program sees them: which one is in a slot, and the value of each. -/
structure Variables (N : Type) where
  age : Nat → Nat
  store : Variable → TValue N

namespace Variables

variable (a : Variables N)

def current (s : Nat) : Variable := ⟨s, a.age s⟩

def set (x : Variable) (v : TValue N) : Variables N :=
  { a with store := fun y => if y = x then v else a.store y }

/-- New variables in all slots from `level` on; they find what the old ones have left. -/
def close (level : Nat) : Variables N where
  age s := if level ≤ s then a.age s + 1 else a.age s
  store x := if level ≤ x.slot ∧ x.age = a.age x.slot + 1 then a.store (a.current x.slot)
    else a.store x

end Variables

/-- A thread with its upvalues, the variables that they stand for, and the captures that closures
still hold. -/
structure World (N : Type) where
  lua : Upvalues N
  vars : Variables N
  held : List (Nat × Variable)

namespace World

/-- A thread at its start. -/
def Start (w : World N) : Prop :=
  (∀ u, w.lua.heap u = none) ∧ w.lua.openupval = [] ∧ w.lua.uvhead = [] ∧ w.held = [] ∧
    ∀ s, w.lua.stack s = w.vars.store (w.vars.current s)

/-- What happens to the variables of a thread; a collector finds upvalues dead that no closure holds,
and frees dead ones, at any time. -/
inductive Step : World N → World N → Prop where
  | capture (w : World N) (level addr : Nat) (hfree : w.lua.heap addr = none) :
      Step w ⟨(luaFFindupval w.lua level addr).2, w.vars,
        ((luaFFindupval w.lua level addr).1, w.vars.current level) :: w.held⟩
  | close (w : World N) (level : Nat) :
      Step w ⟨luaFClose w.lua level, w.vars.close level, w.held⟩
  | setStack (w : World N) (s : Nat) (v : TValue N) :
      Step w ⟨w.lua.setStack s v, w.vars.set (w.vars.current s) v, w.held⟩
  | setUpval (w : World N) (u : Nat) (x : Variable) (v : TValue N) (hx : (u, x) ∈ w.held) :
      Step w ⟨w.lua.write u v, w.vars.set x v, w.held⟩
  | release (w : World N) (u : Nat) :
      Step w { w with held := w.held.filter (·.1 ≠ u) }
  | die (w : World N) (u : Nat) (uv : UpVal N) (hu : w.lua.heap u = some uv)
      (hx : ∀ x, (u, x) ∉ w.held) :
      Step w { w with lua := w.lua.setHeap u (some { uv with dead := true }) }
  | sweep (w : World N) (u : Nat) (uv : UpVal N) (hu : w.lua.heap u = some uv)
      (hd : uv.dead = true) : Step w { w with lua := sweepUpval w.lua u }

/-- The upvalue holds the variable: on the stack as long as it is the current one there, in itself
afterwards. -/
def Bound (w : World N) (u : Nat) (x : Variable) : Prop :=
  ∃ uv, w.lua.heap u = some uv ∧ uv.dead = false ∧
    (uv.v = .stack x.slot ∧ x.age = w.vars.age x.slot ∨
      uv.v = .own ∧ uv.value = w.vars.store x ∧ x.age < w.vars.age x.slot)

/-- The invariant of the captures. -/
structure Shared (w : World N) : Prop where
  ordered : w.lua.Ordered
  slot : ∀ s, w.lua.stack s = w.vars.store (w.vars.current s)
  bound : ∀ u x, (u, x) ∈ w.held → w.Bound u x
  same : ∀ u x u' x', (u, x) ∈ w.held → (u', x') ∈ w.held → (u = u' ↔ x = x')

section Steps

variable {w : World N}

theorem shared_start (h : w.Start) : w.Shared := by
  obtain ⟨hheap, hopen, huv, hheld, hslot⟩ := h
  have hnot : ∀ u l, ¬ w.lua.OpenAt u l := by
    intro u l hl
    obtain ⟨uv, hu, -⟩ := hl
    rw [hheap] at hu
    cases hu
  refine ⟨⟨?_, fun u l hl => absurd hl (hnot u l), ?_, ?_⟩, hslot, ?_, ?_⟩
  · rw [hopen]
    simp
  · rw [hopen]
    exact List.Pairwise.nil
  · rw [hopen, huv]
  · rw [hheld]
    simp
  · rw [hheld]
    simp

theorem Shared.openAt (h : w.Shared) {u : Nat} {x : Variable} (hx : (u, x) ∈ w.held)
    (hage : x.age = w.vars.age x.slot) : w.lua.OpenAt u x.slot := by
  obtain ⟨uv, hu, -, ⟨hv, -⟩ | ⟨-, -, hlt⟩⟩ := h.bound u x hx
  · exact ⟨uv, hu, hv⟩
  · exact absurd hage (Nat.ne_of_lt hlt)

theorem Shared.capture (h : w.Shared) (level addr : Nat) (hfree : w.lua.heap addr = none) :
    Shared ⟨(luaFFindupval w.lua level addr).2, w.vars,
      ((luaFFindupval w.lua level addr).1, w.vars.current level) :: w.held⟩ := by
  have hc := luaFFindupval_captured level h.ordered hfree
  generalize luaFFindupval w.lua level addr = r at hc
  obtain ⟨p, L⟩ := r
  obtain ⟨uv, hp, hv, hd⟩ := hc.alive
  -- what holds the upvalue of the slot holds the variable that is there now, and the other way
  have hold : ∀ u x, (u, x) ∈ w.held → (u = p ↔ x = w.vars.current level) := by
    intro u x hx
    constructor
    · intro hu
      obtain ⟨uv', hu', -, hb⟩ := h.bound u x hx
      rcases hc.known with hk | hk
      · have hpa : p = addr := hk
        rw [hu, hpa, hfree] at hu'
        cases hu'
      · obtain ⟨uv'', hu'', hv''⟩ := hk
        rw [hu, hu''] at hu'
        cases hu'
        rcases hb with ⟨hv', hage⟩ | ⟨hv', -, -⟩
        · have hslot := Home.stack.inj (hv'.symm.trans hv'')
          obtain ⟨slot, age⟩ := x
          simp only at hslot hage
          rw [hage, hslot]
          rfl
        · cases hv'.symm.trans hv''
    · intro hxc
      by_contra hne
      have hopen := h.openAt hx (by rw [hxc]; rfl)
      rw [hxc] at hopen
      obtain ⟨uv', hu', hv'⟩ := hopen
      exact hne (hc.ordered.unique ⟨uv', (hc.others u hne).trans hu', hv'⟩ ⟨uv, hp, hv⟩)
  refine ⟨hc.ordered, fun s => ?_, fun u x hx => ?_, fun u x u' x' hx hx' => ?_⟩
  · rw [hc.stack]
    exact h.slot s
  · rcases List.mem_cons.mp hx with heq | hx
    · cases heq
      exact ⟨uv, hp, hd, .inl ⟨hv, rfl⟩⟩
    · by_cases hu : u = p
      · rw [(hold u x hx).mp hu, hu]
        exact ⟨uv, hp, hd, .inl ⟨hv, rfl⟩⟩
      · obtain ⟨uv', hu', hd', hb⟩ := h.bound u x hx
        exact ⟨uv', (hc.others u hu).trans hu', hd', hb⟩
  · rcases List.mem_cons.mp hx with heq | hx
    · cases heq
      rcases List.mem_cons.mp hx' with heq' | hx'
      · cases heq'
        simp
      · rw [eq_comm, hold u' x' hx', eq_comm]
    · rcases List.mem_cons.mp hx' with heq' | hx'
      · cases heq'
        exact hold u x hx
      · exact h.same u x u' x' hx hx'

theorem Shared.close (h : w.Shared) (level : Nat) :
    Shared ⟨luaFClose w.lua level, w.vars.close level, w.held⟩ := by
  obtain ⟨hord, hstack, hheap⟩ := luaFClose_spec h.ordered level
  refine ⟨hord, fun s => ?_, fun u x hx => ?_, h.same⟩
  · rw [hstack, h.slot]
    by_cases hs : level ≤ s <;> simp [Variables.close, Variables.current, hs]
  · obtain ⟨uv, hu, hd, ⟨hv, hage⟩ | ⟨hv, hval, hage⟩⟩ := h.bound u x hx
    · have hcl := closedHeap_open level hu hv
      by_cases hs : level ≤ x.slot
      · rw [if_pos hs, hd] at hcl
        refine ⟨_, (hheap u).trans hcl, rfl, .inr ⟨rfl, ?_, ?_⟩⟩
        · have hx' : x = w.vars.current x.slot := by
            rw [Variables.current, ← hage]
          simp only [h.slot, Variables.close]
          rw [if_neg (by omega), ← hx']
        · simp only [Variables.close, if_pos hs]
          omega
      · rw [if_neg hs] at hcl
        refine ⟨uv, (hheap u).trans hcl, hd, .inl ⟨hv, ?_⟩⟩
        simp only [Variables.close, if_neg hs]
        exact hage
    · have hcl : closedHeap w.lua level u = some uv := by simp only [closedHeap, hu, hv]
      refine ⟨uv, (hheap u).trans hcl, hd, .inr ⟨hv, ?_, ?_⟩⟩
      · simp only [Variables.close]
        rw [if_neg (by omega)]
        exact hval
      · simp only [Variables.close]
        split_ifs <;> omega

theorem Shared.setStack (h : w.Shared) (s : Nat) (v : TValue N) :
    Shared ⟨w.lua.setStack s v, w.vars.set (w.vars.current s) v, w.held⟩ := by
  refine ⟨h.ordered.congr (fun _ _ => Iff.rfl) rfl rfl, fun t => ?_, fun u x hx => ?_, h.same⟩
  · have hslot := h.slot t
    by_cases ht : t = s
    · simp [Upvalues.setStack, Variables.set, Variables.current, ht]
    · simpa [Upvalues.setStack, Variables.set, Variables.current, ht] using hslot
  · obtain ⟨uv, hu, hd, hb | ⟨hv, hval, hage⟩⟩ := h.bound u x hx
    · exact ⟨uv, hu, hd, .inl hb⟩
    · have hne : x ≠ w.vars.current s := by
        intro heq
        rw [heq] at hage
        exact Nat.lt_irrefl _ hage
      refine ⟨uv, hu, hd, .inr ⟨hv, ?_, hage⟩⟩
      simp only [Variables.set, if_neg hne]
      exact hval

theorem Shared.setUpval (h : w.Shared) {u : Nat} {x : Variable} (v : TValue N)
    (hx : (u, x) ∈ w.held) : Shared ⟨w.lua.write u v, w.vars.set x v, w.held⟩ := by
  obtain ⟨uv, hu, hd, ⟨hv, hage⟩ | ⟨hv, -, hage⟩⟩ := h.bound u x hx
  · have hopen : w.lua.OpenAt u x.slot := ⟨uv, hu, hv⟩
    have hx' : w.vars.current x.slot = x := by rw [Variables.current, ← hage]
    have hset := h.setStack x.slot v
    rw [hx'] at hset
    rw [hopen.write]
    exact hset
  · have hwrite : w.lua.write u v = w.lua.setHeap u (some { uv with value := v }) := by
      simp only [Upvalues.write, hu, hv]
    rw [hwrite]
    refine ⟨h.ordered.congr (openAt_setHeap hu rfl) rfl rfl, fun s => ?_, fun u' x' hx' => ?_,
      h.same⟩
    · have hne : w.vars.current s ≠ x := by
        intro heq
        rw [← heq] at hage
        exact Nat.lt_irrefl _ hage
      show w.lua.stack s = if w.vars.current s = x then v else w.vars.store (w.vars.current s)
      rw [if_neg hne]
      exact h.slot s
    · by_cases hu' : u' = u
      · have hxx := (h.same u' x' u x hx' hx).mp hu'
        subst hxx hu'
        exact ⟨{ uv with value := v }, by simp [setHeap], hd, .inr ⟨hv, by simp [Variables.set], hage⟩⟩
      · have hxx : x' ≠ x := fun heq => hu' ((h.same u' x' u x hx' hx).mpr heq)
        obtain ⟨uv', hheap, hd', hb⟩ := h.bound u' x' hx'
        refine ⟨uv', by simp only [setHeap, if_neg hu', hheap], hd', ?_⟩
        simp only [Variables.set, if_neg hxx]
        exact hb

theorem Shared.release (h : w.Shared) (u : Nat) :
    Shared { w with held := w.held.filter (·.1 ≠ u) } :=
  ⟨h.ordered, h.slot, fun u' x hx => h.bound u' x (List.mem_filter.mp hx).1,
    fun _ _ _ _ hx hx' => h.same _ _ _ _ (List.mem_filter.mp hx).1 (List.mem_filter.mp hx').1⟩

/-- Nothing that is held is touched. -/
theorem Shared.elsewhere (h : w.Shared) {L : Upvalues N} {u : Nat} (hord : L.Ordered)
    (hstack : L.stack = w.lua.stack) (hstay : ∀ u', u' ≠ u → L.heap u' = w.lua.heap u')
    (hx : ∀ x, (u, x) ∉ w.held) : Shared { w with lua := L } := by
  refine ⟨hord, fun s => ?_, fun u' x hx' => ?_, h.same⟩
  · rw [hstack]
    exact h.slot s
  · have hne : u' ≠ u := fun heq => hx x (heq ▸ hx')
    obtain ⟨uv, hu, hd, hb⟩ := h.bound u' x hx'
    exact ⟨uv, (hstay u' hne).trans hu, hd, hb⟩

theorem Shared.step {w' : World N} (h : w.Shared) (hs : Step w w') : w'.Shared := by
  cases hs with
  | capture level addr hfree => exact h.capture level addr hfree
  | close level => exact h.close level
  | setStack s v => exact h.setStack s v
  | setUpval u x v hx => exact h.setUpval v hx
  | release u => exact h.release u
  | die u uv hu hx =>
    have hsame : ∀ v m, (w.lua.setHeap u (some { uv with dead := true })).OpenAt v m ↔ _ :=
      openAt_setHeap hu rfl
    have hord := h.ordered.congr hsame rfl rfl
    exact h.elsewhere hord rfl (fun u' hu' => if_neg hu') hx
  | sweep u uv hu hd =>
    obtain ⟨hord, hstack, hstay⟩ := sweepUpval_spec h.ordered u
    refine h.elsewhere hord hstack hstay fun x hx => ?_
    obtain ⟨uv', hu', hd', -⟩ := h.bound u x hx
    rw [hu] at hu'
    cases hu'
    rw [hd] at hd'
    cases hd'

theorem Shared.read (h : w.Shared) {u : Nat} {x : Variable} (hx : (u, x) ∈ w.held) :
    w.lua.read u = some (w.vars.store x) := by
  obtain ⟨uv, hu, -, ⟨hv, hage⟩ | ⟨hv, hval, -⟩⟩ := h.bound u x hx
  · have hx' : w.vars.current x.slot = x := by rw [Variables.current, ← hage]
    rw [OpenAt.read ⟨uv, hu, hv⟩, h.slot, hx']
  · simp only [Upvalues.read, hu, hv, hval]

end Steps

/-- In every run, the open list goes down the stack with one upvalue for a level, captures of one
variable and only those share an upvalue, and slots and upvalues read what the variable was set to
last. -/
theorem upvalues_share_variables {w : World N} (h : Reach Start Step w) :
    (w.lua.openupval.Pairwise fun u u' => ∀ l l', w.lua.OpenAt u l → w.lua.OpenAt u' l' → l' < l) ∧
    (∀ u ∈ w.lua.openupval, ∃ l, w.lua.OpenAt u l) ∧
    (∀ u x u' x', (u, x) ∈ w.held → (u', x') ∈ w.held → (u = u' ↔ x = x')) ∧
    (∀ u x, (u, x) ∈ w.held → w.lua.read u = some (w.vars.store x)) ∧
    ∀ s, w.lua.stack s = w.vars.store (w.vars.current s) := by
  have hshared := h.inv Shared (fun _ => shared_start) fun _ _ => Shared.step
  exact ⟨hshared.ordered.sorted, hshared.ordered.isOpen, hshared.same,
    fun u x hx => hshared.read hx, hshared.slot⟩

/-- A thread with nothing on its stack. -/
def empty : World Int := ⟨⟨fun _ => .nil, fun _ => none, [], []⟩, ⟨fun _ => 0, fun _ => .nil⟩, []⟩

/-- A variable of slot 2 is captured, set, closed, and its slot is used again. -/
def reused : World Int :=
  let w : World Int := ⟨(luaFFindupval empty.lua 2 7).2, empty.vars, [(7, ⟨2, 0⟩)]⟩
  let w : World Int := ⟨w.lua.setStack 2 (.number 5), w.vars.set (w.vars.current 2) (.number 5), w.held⟩
  let w : World Int := ⟨luaFClose w.lua 2, w.vars.close 2, w.held⟩
  ⟨w.lua.setStack 2 (.number 6), w.vars.set (w.vars.current 2) (.number 6), w.held⟩

theorem reach_reused : Reach Start Step reused := by
  have h0 : Reach Start Step empty := .start ⟨fun _ => rfl, rfl, rfl, rfl, fun _ => rfl⟩
  have h1 := h0.step (.capture empty 2 7 rfl)
  have h2 := h1.step (.setStack _ 2 (.number 5))
  have h3 := h2.step (.close _ 2)
  exact h3.step (.setStack _ 2 (.number 6))

theorem upvalues_share_variables_reused :
    reused.lua.read 7 = some (.number 5) ∧ reused.lua.stack 2 = .number 6 := by
  obtain ⟨-, -, -, hread, hslot⟩ := upvalues_share_variables reach_reused
  exact ⟨hread 7 ⟨2, 0⟩ (by decide), hslot 2⟩

end World

end UgmeeLua

import Mathlib.Data.List.Perm.Basic
import Mathlib.Tactic.SplitIfs
import UgmeeLua.Vm.Upvalue

namespace UgmeeLua

variable {N : Type}

namespace Upvalues

/-- The upvalue `u` is open at a level. -/
def OpenAt (L : Upvalues N) (u l : Nat) : Prop := ∃ uv, L.heap u = some uv ∧ uv.v = .stack l

/-- The open list holds exactly the open upvalues, from the top of the stack on down, and `uvhead`
the same ones. -/
structure Ordered (L : Upvalues N) : Prop where
  isOpen : ∀ u ∈ L.openupval, ∃ l, L.OpenAt u l
  mem : ∀ u l, L.OpenAt u l → u ∈ L.openupval
  sorted : L.openupval.Pairwise fun u w => ∀ l m, L.OpenAt u l → L.OpenAt w m → m < l
  uvhead : L.uvhead.Perm L.openupval

section Access

variable {L : Upvalues N} {u l level : Nat}

theorem OpenAt.unique {m : Nat} (h : L.OpenAt u l) (h' : L.OpenAt u m) : l = m := by
  obtain ⟨uv, hu, hv⟩ := h
  obtain ⟨uv', hu', hv'⟩ := h'
  rw [hu] at hu'
  cases hu'
  exact Home.stack.inj (hv.symm.trans hv')

theorem OpenAt.atLeast (h : L.OpenAt u l) : L.atLeast level u = decide (level ≤ l) := by
  obtain ⟨uv, hu, hv⟩ := h
  simp [Upvalues.atLeast, hu, hv, Home.atLeast]

theorem OpenAt.isAt (h : L.OpenAt u l) : L.isAt level u = decide (l = level) := by
  obtain ⟨uv, hu, hv⟩ := h
  simp [Upvalues.isAt, hu, hv]

theorem OpenAt.read (h : L.OpenAt u l) : L.read u = some (L.stack l) := by
  obtain ⟨uv, hu, hv⟩ := h
  simp [Upvalues.read, hu, hv]

theorem OpenAt.write (h : L.OpenAt u l) (v : TValue N) : L.write u v = L.setStack l v := by
  obtain ⟨uv, hu, hv⟩ := h
  simp [Upvalues.write, hu, hv]

theorem Ordered.nodup (h : L.Ordered) : L.openupval.Nodup := by
  have hmem : ∀ u ∈ L.openupval, ∃ l, L.OpenAt u l := h.isOpen
  apply List.Pairwise.imp_of_mem _ h.sorted
  intro u w hu _ hlt heq
  subst heq
  obtain ⟨l, hl⟩ := hmem u hu
  exact Nat.lt_irrefl l (hlt l l hl hl)

/-- There is one open upvalue for a level at most. -/
theorem Ordered.unique (h : L.Ordered) {w : Nat} (hu : L.OpenAt u l) (hw : L.OpenAt w l) :
    u = w := by
  by_contra hne
  have hsym : ∀ {a b : Nat}, L.OpenAt a l → L.OpenAt b l →
      ¬ ∀ i j, L.OpenAt a i → L.OpenAt b j → j < i := fun ha hb hlt =>
    Nat.lt_irrefl l (hlt l l ha hb)
  have hs := List.pairwise_iff_getElem.mp h.sorted
  obtain ⟨i, hi, rfl⟩ := List.getElem_of_mem (h.mem u l hu)
  obtain ⟨j, hj, rfl⟩ := List.getElem_of_mem (h.mem w l hw)
  rcases Nat.lt_trichotomy i j with hij | hij | hij
  · exact hsym hu hw (hs i j hi hj hij)
  · subst hij
    exact hne rfl
  · exact hsym hw hu (hs j i hj hi hij)

/-- The order is one of levels only. -/
theorem Ordered.congr (h : L.Ordered) {L' : Upvalues N} (hat : ∀ w m, L'.OpenAt w m ↔ L.OpenAt w m)
    (hlist : L'.openupval = L.openupval) (huv : L'.uvhead = L.uvhead) : L'.Ordered := by
  refine ⟨?_, ?_, ?_, ?_⟩
  · intro w hw
    obtain ⟨m, hm⟩ := h.isOpen w (hlist ▸ hw)
    exact ⟨m, (hat w m).mpr hm⟩
  · intro w m hm
    rw [hlist]
    exact h.mem w m ((hat w m).mp hm)
  · rw [hlist]
    refine h.sorted.imp fun hlt i j hi hj => ?_
    exact hlt i j ((hat _ i).mp hi) ((hat _ j).mp hj)
  · rw [hlist, huv]
    exact h.uvhead

/-- A change of an upvalue that leaves its place alone. -/
theorem openAt_setHeap {uv uv' : UpVal N} (hu : L.heap u = some uv) (hv : uv'.v = uv.v)
    (w m : Nat) : (L.setHeap u (some uv')).OpenAt w m ↔ L.OpenAt w m := by
  unfold OpenAt setHeap
  simp only
  split_ifs with hw
  · subst hw
    simp [hu, hv]
  · rfl

end Access

section Find

variable {L : Upvalues N} {level : Nat}

/-- The search finds the upvalue of the level, or the place between those above and those below. -/
theorem findupvalLoop_spec (level : Nat) (us : List Nat) (before : List Nat)
    (hopen : ∀ u ∈ us, ∃ l, L.OpenAt u l)
    (hsorted : us.Pairwise fun u w => ∀ l m, L.OpenAt u l → L.OpenAt w m → m < l) :
    (∃ p, findupvalLoop L level before us = .upval p ∧ p ∈ us ∧ L.OpenAt p level) ∨
    ∃ above below, findupvalLoop L level before us = .place (before ++ above) below ∧
      us = above ++ below ∧ (∀ u ∈ above, ∀ l, L.OpenAt u l → level < l) ∧
      ∀ u ∈ below, ∀ l, L.OpenAt u l → l < level := by
  induction us generalizing before with
  | nil => exact .inr ⟨[], [], by simp [findupvalLoop], rfl, by simp, by simp⟩
  | cons u us ih =>
    obtain ⟨l, hl⟩ := hopen u List.mem_cons_self
    obtain ⟨hhead, htail⟩ := List.pairwise_cons.mp hsorted
    rw [findupvalLoop, hl.atLeast, hl.isAt]
    by_cases hge : level ≤ l
    · rw [if_pos (by simpa using hge)]
      by_cases heq : l = level
      · subst heq
        rw [if_pos (by simp)]
        exact .inl ⟨u, rfl, List.mem_cons_self, hl⟩
      · rw [if_neg (by simpa using heq)]
        rcases ih (before ++ [u]) (fun w hw => hopen w (List.mem_cons_of_mem u hw)) htail with
          ⟨p, hp, hmem, hat⟩ | ⟨above, below, hp, hsplit, habove, hbelow⟩
        · exact .inl ⟨p, hp, List.mem_cons_of_mem u hmem, hat⟩
        · refine .inr ⟨u :: above, below, by simpa using hp, by rw [hsplit]; rfl, ?_, hbelow⟩
          intro w hw m hm
          rcases List.mem_cons.mp hw with rfl | hw
          · rw [hm.unique hl]
            omega
          · exact habove w hw m hm
    · rw [if_neg (by simpa using hge)]
      refine .inr ⟨[], u :: us, by simp, rfl, by simp, ?_⟩
      intro w hw m hm
      rcases List.mem_cons.mp hw with rfl | hw
      · rw [hm.unique hl]
        omega
      · have := hhead w hw l m hl hm
        omega

theorem resurrect_heap (p u : Nat) : (resurrect L p).heap u =
    if u = p then (L.heap p).map fun uv => { uv with dead := false } else L.heap u := by
  unfold resurrect
  cases hp : L.heap p with
  | none =>
    split_ifs with h
    · rw [h, hp]
      rfl
    · rfl
  | some uv =>
    obtain ⟨v, value, dead⟩ := uv
    cases dead with
    | true => rfl
    | false =>
      simp only [Bool.false_eq_true, if_false, Option.map_some]
      split_ifs with h
      · rw [h, hp]
      · rfl

theorem resurrect_lists (p : Nat) : (resurrect L p).stack = L.stack ∧
    (resurrect L p).openupval = L.openupval ∧ (resurrect L p).uvhead = L.uvhead := by
  unfold resurrect
  cases L.heap p with
  | none => exact ⟨rfl, rfl, rfl⟩
  | some uv => dsimp only; split_ifs <;> exact ⟨rfl, rfl, rfl⟩

theorem openAt_resurrect (p u l : Nat) : (resurrect L p).OpenAt u l ↔ L.OpenAt u l := by
  unfold OpenAt
  rw [resurrect_heap]
  split_ifs with h
  · subst h
    cases L.heap u <;> simp
  · rfl

/-- What a capture of the slot `level` gives: its open upvalue, alive, with nothing else changed. -/
structure Captured (L : Upvalues N) (level addr : Nat) (r : Nat × Upvalues N) : Prop where
  ordered : r.2.Ordered
  stack : r.2.stack = L.stack
  alive : ∃ uv, r.2.heap r.1 = some uv ∧ uv.v = .stack level ∧ uv.dead = false
  others : ∀ u, u ≠ r.1 → r.2.heap u = L.heap u
  known : r.1 = addr ∨ L.OpenAt r.1 level

theorem linkupval_captured (h : L.Ordered) {addr : Nat} (hfree : L.heap addr = none)
    {above below : List Nat} (hsplit : L.openupval = above ++ below)
    (habove : ∀ u ∈ above, ∀ l, L.OpenAt u l → level < l)
    (hbelow : ∀ u ∈ below, ∀ l, L.OpenAt u l → l < level) :
    Captured L level addr (addr, linkupval L level addr above below) := by
  have hheap : ∀ u, (linkupval L level addr above below).heap u =
      if u = addr then some ⟨.stack level, .nil, false⟩ else L.heap u := fun _ => rfl
  have hlist : (linkupval L level addr above below).openupval = above ++ addr :: below := rfl
  have huv : (linkupval L level addr above below).uvhead = addr :: L.uvhead := rfl
  have hstack : (linkupval L level addr above below).stack = L.stack := rfl
  generalize linkupval L level addr above below = L' at hheap hlist huv hstack ⊢
  have hne : ∀ u l, L.OpenAt u l → u ≠ addr := by
    intro u l hl hu
    obtain ⟨uv, hu', -⟩ := hl
    rw [hu, hfree] at hu'
    cases hu'
  have hat : L'.OpenAt addr level := ⟨_, by rw [hheap, if_pos rfl], rfl⟩
  have hold : ∀ u l, L.OpenAt u l → L'.OpenAt u l := by
    intro u l hl
    have hu := hne u l hl
    obtain ⟨uv, hu', hv⟩ := hl
    exact ⟨uv, by rw [hheap, if_neg hu, hu'], hv⟩
  have hback : ∀ u l, L'.OpenAt u l → u ≠ addr → L.OpenAt u l := by
    intro u l hl hua
    obtain ⟨uv, hu, hv⟩ := hl
    rw [hheap, if_neg hua] at hu
    exact ⟨uv, hu, hv⟩
  have hopen : ∀ u, u ∈ above ++ below → ∃ l, L.OpenAt u l := fun u hu =>
    h.isOpen u (hsplit ▸ hu)
  have hnot : ∀ u ∈ above ++ below, u ≠ addr := by
    intro u hu
    obtain ⟨l, hl⟩ := hopen u hu
    exact hne u l hl
  have hlift : ∀ {u w : Nat}, u ∈ above ++ below → w ∈ above ++ below →
      (∀ l m, L.OpenAt u l → L.OpenAt w m → m < l) →
      ∀ l m, L'.OpenAt u l → L'.OpenAt w m → m < l := fun hu hw hlt l m hl hm =>
    hlt l m (hback _ l hl (hnot _ hu)) (hback _ m hm (hnot _ hw))
  refine ⟨⟨?_, ?_, ?_, ?_⟩, hstack, ?_, fun u hu => ?_, .inl rfl⟩
  · intro u hu
    rw [hlist] at hu
    by_cases hua : u = addr
    · exact ⟨level, hua ▸ hat⟩
    · obtain ⟨l, hl⟩ := hopen u (by simpa [hua] using hu)
      exact ⟨l, hold u l hl⟩
  · intro u l hl
    rw [hlist]
    by_cases hua : u = addr
    · simp [hua]
    · have hmem := h.mem u l (hback u l hl hua)
      rw [hsplit] at hmem
      simpa [hua] using hmem
  · rw [hlist]
    have hsorted := h.sorted
    rw [hsplit] at hsorted
    obtain ⟨ha, hb, hab⟩ := List.pairwise_append.mp hsorted
    refine List.pairwise_append.mpr ⟨?_, List.pairwise_cons.mpr ⟨?_, ?_⟩, ?_⟩
    · exact ha.imp_of_mem fun hu hw => hlift (List.mem_append_left _ hu)
        (List.mem_append_left _ hw)
    · intro w hw l m hl hm
      rw [hl.unique hat]
      have hw' := List.mem_append_right above hw
      exact hbelow w hw m (hback w m hm (hnot w hw'))
    · exact hb.imp_of_mem fun hu hw => hlift (List.mem_append_right _ hu)
        (List.mem_append_right _ hw)
    · intro u hu w hw l m hl hm
      have hu' := List.mem_append_left below hu
      rcases List.mem_cons.mp hw with rfl | hw
      · rw [hm.unique hat]
        exact habove u hu l (hback u l hl (hnot u hu'))
      · have hw' := List.mem_append_right above hw
        exact hlift hu' hw' (hab u hu w hw) l m hl hm
  · rw [hlist, huv]
    refine (List.Perm.cons addr h.uvhead).trans ?_
    rw [hsplit]
    exact List.perm_middle.symm
  · exact ⟨_, by rw [hheap, if_pos rfl], rfl, rfl⟩
  · rw [hheap, if_neg hu]

theorem resurrect_captured (h : L.Ordered) {addr p : Nat} (hat : L.OpenAt p level) :
    Captured L level addr (p, resurrect L p) := by
  obtain ⟨hstack, hlist, huv⟩ := resurrect_lists (L := L) p
  refine ⟨h.congr (openAt_resurrect p) hlist huv, hstack, ?_, fun u hu => ?_, .inr hat⟩
  · obtain ⟨uv, hu, hv⟩ := hat
    refine ⟨{ uv with dead := false }, ?_, hv, rfl⟩
    rw [resurrect_heap, if_pos rfl, hu]
    rfl
  · rw [resurrect_heap, if_neg hu]

theorem luaFFindupval_captured (level : Nat) (h : L.Ordered) {addr : Nat}
    (hfree : L.heap addr = none) :
    Captured L level addr (luaFFindupval L level addr) := by
  unfold luaFFindupval
  rcases findupvalLoop_spec level L.openupval [] h.isOpen h.sorted with
    ⟨p, hp, -, hat⟩ | ⟨above, below, hp, hsplit, habove, hbelow⟩
  · rw [hp]
    exact resurrect_captured h hat
  · rw [hp]
    exact linkupval_captured h hfree hsplit habove hbelow

/-- The search finds the upvalue of the level, or a new one comes to `addr`. -/
theorem luaFFindupval_cases (level : Nat) (h : L.Ordered) (addr : Nat) :
    (∃ p, L.OpenAt p level ∧ luaFFindupval L level addr = (p, resurrect L p)) ∨
    (∀ u, ¬ L.OpenAt u level) ∧ ∃ above below,
      luaFFindupval L level addr = (addr, linkupval L level addr above below) := by
  unfold luaFFindupval
  rcases findupvalLoop_spec level L.openupval [] h.isOpen h.sorted with
    ⟨p, hp, -, hat⟩ | ⟨above, below, hp, hsplit, habove, hbelow⟩
  · rw [hp]
    exact .inl ⟨p, hat, rfl⟩
  · rw [hp]
    refine .inr ⟨fun u hu => ?_, [] ++ above, below, rfl⟩
    have hmem := h.mem u level hu
    rw [hsplit] at hmem
    rcases List.mem_append.mp hmem with hu' | hu'
    · exact Nat.lt_irrefl _ (habove u hu' level hu)
    · exact Nat.lt_irrefl _ (hbelow u hu' level hu)

end Find

section Close

variable {L : Upvalues N} {level : Nat}

/-- An upvalue that is not open any more is in neither list. -/
theorem Ordered.without (h : L.Ordered) {L' : Upvalues N} (u : Nat)
    (hstay : ∀ w, w ≠ u → L'.heap w = L.heap w) (hu : ∀ l, ¬ L'.OpenAt u l)
    (hlist : L'.openupval = L.openupval.erase u) (huv : L'.uvhead = L.uvhead.erase u) :
    L'.Ordered := by
  have hiff : ∀ w l, w ≠ u → (L'.OpenAt w l ↔ L.OpenAt w l) := by
    intro w l hw
    rw [OpenAt, OpenAt, hstay w hw]
  have hmem : ∀ w, w ∈ L'.openupval ↔ w ≠ u ∧ w ∈ L.openupval := by
    intro w
    rw [hlist, h.nodup.mem_erase_iff]
  refine ⟨?_, ?_, ?_, ?_⟩
  · intro w hw
    obtain ⟨hne, hw⟩ := (hmem w).mp hw
    obtain ⟨l, hl⟩ := h.isOpen w hw
    exact ⟨l, (hiff w l hne).mpr hl⟩
  · intro w l hl
    have hne : w ≠ u := fun heq => hu l (heq ▸ hl)
    exact (hmem w).mpr ⟨hne, h.mem w l ((hiff w l hne).mp hl)⟩
  · have hsub : L'.openupval.Pairwise fun u w => ∀ l m, L.OpenAt u l → L.OpenAt w m → m < l := by
      rw [hlist]
      exact h.sorted.sublist List.erase_sublist
    refine hsub.imp_of_mem fun ha hb hlt l m hl hm => ?_
    exact hlt l m ((hiff _ l ((hmem _).mp ha).1).mp hl) ((hiff _ m ((hmem _).mp hb).1).mp hm)
  · rw [hlist, huv]
    exact h.uvhead.erase u

/-- What `luaF_close` makes of an upvalue. -/
def closedHeap (L : Upvalues N) (level u : Nat) : Option (UpVal N) :=
  match L.heap u with
  | some uv =>
    match uv.v with
    | .stack l =>
      if level ≤ l then
        if uv.dead then none else some { uv with value := L.stack l, v := .own }
      else some uv
    | .own => some uv
  | none => none

theorem closedHeap_open (level : Nat) {u l : Nat} {uv : UpVal N} (hu : L.heap u = some uv)
    (hv : uv.v = .stack l) :
    closedHeap L level u = if level ≤ l then
      if uv.dead then none else some { uv with value := L.stack l, v := .own } else some uv := by
  simp only [closedHeap, hu, hv]

theorem closedHeap_below {u : Nat} (h : ∀ l, L.OpenAt u l → l < level) :
    closedHeap L level u = L.heap u := by
  unfold closedHeap
  cases hu : L.heap u with
  | none => rfl
  | some uv =>
    cases hv : uv.v with
    | own => simp only [hv]
    | stack l =>
      have hlt := h l ⟨uv, hu, hv⟩
      simp only [hv, if_neg (Nat.not_le.mpr hlt)]

/-- The head of the open list is closed, or freed when it is dead. -/
theorem closeUpval_head (h : L.Ordered) {u l : Nat} {rest : List Nat} (hat : L.OpenAt u l)
    (hge : level ≤ l) (hlist : L.openupval = u :: rest) :
    let L' := closeUpval { L with openupval := rest } u
    L'.Ordered ∧ L'.stack = L.stack ∧ L'.openupval = rest ∧
      L'.heap u = closedHeap L level u ∧ (∀ m, ¬ L'.OpenAt u m) ∧
      ∀ w, w ≠ u → L'.heap w = L.heap w := by
  obtain ⟨uv, hu, hv⟩ := hat
  have hclosed := closedHeap_open level hu hv
  rw [if_pos hge] at hclosed
  -- both ways the upvalue leaves the two lists, and only its own place in the heap changes
  have hshape : closeUpval { L with openupval := rest } u =
      { L with
        openupval := rest
        uvhead := L.uvhead.erase u
        heap := fun w => if w = u then closedHeap L level u else L.heap w } := by
    rw [hclosed]
    unfold closeUpval
    simp only [hu]
    cases hd : uv.dead with
    | true =>
      simp [luaFFreeupval, hu, hv, unlinkupval, setHeap]
    | false =>
      simp [hv, unlinkupval, setHeap]
  rw [hshape]
  have hnot : ∀ m, ¬ OpenAt { L with
        openupval := rest
        uvhead := L.uvhead.erase u
        heap := fun w => if w = u then closedHeap L level u else L.heap w } u m := by
    intro m hm
    obtain ⟨uv', hu', hv'⟩ := hm
    simp only [if_true, hclosed] at hu'
    split_ifs at hu'
    cases hu'
    cases hv'
  refine ⟨h.without u (fun w hw => if_neg hw) hnot ?_ rfl, rfl, rfl, if_pos rfl, hnot,
    fun w hw => if_neg hw⟩
  rw [hlist, List.erase_cons_head]

theorem closeLoop_spec (us : List Nat) (h : L.Ordered) (hlist : L.openupval = us) :
    (closeLoop level us L).Ordered ∧ (closeLoop level us L).stack = L.stack ∧
      ∀ u, (closeLoop level us L).heap u = closedHeap L level u := by
  induction us generalizing L with
  | nil =>
    have hL : closeLoop level [] L = L := by
      show { L with openupval := [] } = L
      rw [← hlist]
    rw [hL]
    refine ⟨h, rfl, fun u => (closedHeap_below fun l hl => ?_).symm⟩
    have hmem := h.mem u l hl
    rw [hlist] at hmem
    cases hmem
  | cons u rest ih =>
    obtain ⟨l, hat⟩ := h.isOpen u (hlist ▸ List.mem_cons_self)
    rw [closeLoop, hat.atLeast]
    by_cases hge : level ≤ l
    · rw [if_pos (by simpa using hge)]
      obtain ⟨h', hstack, hlist', hhead, hnot, hstay⟩ := closeUpval_head h hat hge hlist
      obtain ⟨hord, hst, hheap⟩ := ih h' hlist'
      refine ⟨hord, hst.trans hstack, fun w => ?_⟩
      rw [hheap]
      by_cases hw : w = u
      · subst hw
        rw [closedHeap_below fun m hm => absurd hm (hnot m), hhead]
      · unfold closedHeap
        rw [hstay w hw, hstack]
    · rw [if_neg (by simpa using hge)]
      have hL : ({ L with openupval := u :: rest } : Upvalues N) = L := by rw [← hlist]
      rw [hL]
      refine ⟨h, rfl, fun w => (closedHeap_below fun m hm => ?_).symm⟩
      have hmem := h.mem w m hm
      have hsorted := h.sorted
      rw [hlist] at hmem hsorted
      rcases List.mem_cons.mp hmem with rfl | hmem
      · rw [hm.unique hat]
        omega
      · have hlt := (List.pairwise_cons.mp hsorted).1 w hmem l m hat hm
        omega

theorem luaFClose_spec (h : L.Ordered) (level : Nat) : (luaFClose L level).Ordered ∧
    (luaFClose L level).stack = L.stack ∧ ∀ u, (luaFClose L level).heap u = closedHeap L level u :=
  closeLoop_spec L.openupval h rfl

/-- The upvalues below the level stay open. -/
theorem openAt_luaFClose (h : L.Ordered) {u l : Nat} :
    (luaFClose L level).OpenAt u l ↔ L.OpenAt u l ∧ l < level := by
  obtain ⟨-, -, hheap⟩ := luaFClose_spec h level
  simp only [OpenAt, hheap, closedHeap]
  cases hu : L.heap u with
  | none => simp
  | some uv =>
    cases hv : uv.v with
    | own => simp [hv]
    | stack m =>
      by_cases hge : level ≤ m
      · cases uv.dead <;> simp [hge, hv] <;> omega
      · simp [hge, hv]
        omega

theorem sweepUpval_spec (h : L.Ordered) (u : Nat) : (sweepUpval L u).Ordered ∧
    (sweepUpval L u).stack = L.stack ∧ ∀ w, w ≠ u → (sweepUpval L u).heap w = L.heap w := by
  have hstay : ∀ w, w ≠ u → (sweepUpval L u).heap w = L.heap w := by
    intro w hw
    unfold sweepUpval luaFFreeupval
    simp only [setHeap, if_neg hw]
    split_ifs <;> rfl
  have hstack : (sweepUpval L u).stack = L.stack := by
    unfold sweepUpval luaFFreeupval
    simp only [setHeap]
    split_ifs <;> rfl
  refine ⟨?_, hstack, hstay⟩
  have hnone : (sweepUpval L u).heap u = none := by simp [sweepUpval, luaFFreeupval, setHeap]
  have hnot : ∀ l, ¬ (sweepUpval L u).OpenAt u l := by
    intro l hl
    obtain ⟨uv, hu, -⟩ := hl
    rw [hnone] at hu
    cases hu
  by_cases hopen : ∃ l, L.OpenAt u l
  · obtain ⟨l, uv, hu, hv⟩ := hopen
    refine h.without u hstay hnot ?_ ?_ <;>
      simp [sweepUpval, luaFFreeupval, setHeap, hu, hv, unlinkupval]
  · have hmem : u ∉ L.openupval := fun hm => hopen (h.isOpen u hm)
    have hmem' : u ∉ L.uvhead := fun hm => hmem (h.uvhead.mem_iff.mp hm)
    refine h.without u hstay hnot ?_ ?_
    · simp only [sweepUpval, luaFFreeupval, setHeap]
      split_ifs <;> rfl
    · simp only [sweepUpval, luaFFreeupval, setHeap]
      rw [List.erase_of_not_mem hmem']
      split_ifs
      · exact List.erase_of_not_mem hmem'
      · rfl

end Close

end Upvalues

end UgmeeLua

import Mathlib.Data.List.Find
import Mathlib.Data.List.Nodup
import Mathlib.Data.List.Perm.Subperm
import Mathlib.Tactic.SplitIfs

namespace UgmeeLua.Scatter

variable {κ : Type}

/-- The cells of a chain, from one of them on to its end. -/
inductive Path (next : Nat → Option Nat) : Nat → List Nat → Prop
  | last {i : Nat} (h : next i = none) : Path next i [i]
  | step {i j : Nat} {l : List Nat} (h : next i = some j) (hp : Path next j l) :
      Path next i (i :: l)

/-- The first cell of a chain with a property. -/
def find (next : Nat → Option Nat) (p : Nat → Bool) : Nat → Nat → Option Nat
  | 0, _ => none
  | fuel + 1, i =>
    if p i then some i
    else match next i with
      | some j => find next p fuel j
      | none => none

/-- The cell of a chain whose link leads to `m`. -/
def before (next : Nat → Option Nat) (m : Nat) : Nat → Nat → Nat
  | 0, i => i
  | fuel + 1, i =>
    if next i = some m then i
    else match next i with
      | some j => before next m fuel j
      | none => i

/-- Nothing is found that is not there. -/
theorem find_none {next : Nat → Option Nat} {p : Nat → Bool} (hnone : ∀ x, p x = false)
    (fuel i : Nat) : find next p fuel i = none := by
  induction fuel generalizing i with
  | zero => rfl
  | succ fuel ih =>
    simp only [find, hnone, Bool.false_eq_true, if_false]
    cases next i with
    | none => rfl
    | some j => exact ih j

theorem find_head {next : Nat → Option Nat} {p : Nat → Bool} {fuel i : Nat} (hp : p i = true)
    (hfuel : 0 < fuel) : find next p fuel i = some i := by
  cases fuel with
  | zero => omega
  | succ fuel => simp only [find, hp, if_true]

/-- What is found first with a property is found first with a narrower one that it has. -/
theorem find_narrow {next : Nat → Option Nat} {p q : Nat → Bool} {fuel i j : Nat}
    (h : find next q fuel i = some j) (hj : p j = true) (hle : ∀ x, p x = true → q x = true) :
    find next p fuel i = some j := by
  induction fuel generalizing i with
  | zero => cases h
  | succ fuel ih =>
    cases hq : q i with
    | true =>
      simp only [find, hq, if_true] at h
      cases h
      simp only [find, hj, if_true]
    | false =>
      have hp : p i = false := by
        by_contra hp
        rw [Bool.not_eq_false] at hp
        rw [hle i hp] at hq
        cases hq
      simp only [find, hq, Bool.false_eq_true, if_false] at h
      simp only [find, hp, Bool.false_eq_true, if_false]
      cases hnext : next i with
      | none =>
        rw [hnext] at h
        cases h
      | some i' =>
        rw [hnext] at h
        exact ih h

section Paths

variable {next : Nat → Option Nat} {i : Nat} {l : List Nat}

theorem Path.unique {l' : List Nat} (h : Path next i l) (h' : Path next i l') : l = l' := by
  induction h generalizing l' with
  | last hnone =>
    cases h' with
    | last _ => rfl
    | step hsome _ => rw [hnone] at hsome; cases hsome
  | step hsome _ ih =>
    cases h' with
    | last hnone => rw [hsome] at hnone; cases hnone
    | step hsome' hp' =>
      rw [hsome] at hsome'
      cases hsome'
      rw [ih hp']

theorem Path.head_mem (h : Path next i l) : i ∈ l := by
  cases h <;> exact List.mem_cons_self

theorem Path.suffix (h : Path next i l) {x : Nat} (hx : x ∈ l) :
    ∃ l', Path next x l' ∧ l' <:+ l := by
  induction h with
  | last hnone =>
    obtain rfl := List.mem_singleton.mp hx
    exact ⟨_, .last hnone, List.suffix_refl _⟩
  | step hsome hp ih =>
    rcases List.mem_cons.mp hx with rfl | hx
    · exact ⟨_, .step hsome hp, List.suffix_refl _⟩
    · obtain ⟨l', hl', hsuf⟩ := ih hx
      exact ⟨l', hl', hsuf.trans (List.suffix_cons _ _)⟩

/-- A chain does not come back to a cell. -/
theorem Path.nodup (h : Path next i l) : l.Nodup := by
  induction h with
  | last _ => exact List.nodup_singleton _
  | @step i j l hsome hp ih =>
    refine List.nodup_cons.mpr ⟨fun hmem => ?_, ih⟩
    obtain ⟨l', hl', hsuf⟩ := hp.suffix hmem
    have heq := hl'.unique (.step hsome hp)
    have hlen := hsuf.length_le
    rw [heq, List.length_cons] at hlen
    omega

theorem Path.next_ne (h : Path next i l) : next i ≠ some i := by
  intro hself
  have hnodup := h.nodup
  cases h with
  | last hnone => rw [hself] at hnone; cases hnone
  | step hsome hp =>
    rw [hself] at hsome
    cases hsome
    exact (List.nodup_cons.mp hnodup).1 hp.head_mem

theorem Path.find_eq (h : Path next i l) (p : Nat → Bool) {fuel : Nat} (hf : l.length ≤ fuel) :
    find next p fuel i = l.find? p := by
  induction h generalizing fuel with
  | @last i hnone =>
    obtain ⟨fuel, rfl⟩ : ∃ f, fuel = f + 1 := ⟨fuel - 1, by simp at hf; omega⟩
    cases hp : p i <;> simp [find, hp, hnone]
  | @step i j l hsome _ ih =>
    obtain ⟨fuel, rfl⟩ : ∃ f, fuel = f + 1 := ⟨fuel - 1, by simp at hf; omega⟩
    have hlen : l.length ≤ fuel := by simpa using hf
    cases hp : p i <;> simp [find, hp, hsome, ih hlen]

theorem Path.find_head (h : Path next i l) {p : Nat → Bool} (hp : p i = true) :
    l.find? p = some i := by
  cases h with
  | last _ => rw [List.find?_cons, hp]
  | step _ _ => rw [List.find?_cons, hp]

theorem Path.before_spec (h : Path next i l) {m fuel : Nat} (hm : m ∈ l) (hne : i ≠ m)
    (hf : l.length ≤ fuel) : next (before next m fuel i) = some m := by
  induction h generalizing fuel with
  | last _ => exact absurd (List.mem_singleton.mp hm).symm hne
  | @step i j l hsome hp ih =>
    obtain ⟨fuel, rfl⟩ : ∃ f, fuel = f + 1 := ⟨fuel - 1, by simp at hf; omega⟩
    have hlen : l.length ≤ fuel := by simpa using hf
    have hm' : m ∈ l := (List.mem_cons.mp hm).resolve_left (Ne.symm hne)
    by_cases hj : j = m
    · subst hj
      rw [before, if_pos hsome]
      exact hsome
    · have hother : next i ≠ some m := by
        rw [hsome]
        exact fun heq => hj (Option.some.inj heq)
      rw [before, if_neg hother]
      simp only [hsome]
      exact ih hm' hj hlen

end Paths

/-- What is in the cells, by their index. -/
def contents {α : Type} (f : Nat → Option α) (size : Nat) : List α := (List.range size).filterMap f

section Contents

variable {α : Type} {f g : Nat → Option α} {size i : Nat}

theorem mem_contents {a : α} : a ∈ contents f size ↔ ∃ i < size, f i = some a := by
  simp only [contents, List.mem_filterMap, List.mem_range]

/-- One cell and the rest. -/
theorem contents_split (hi : i < size) (h : ∀ j, j ≠ i → g j = f j) :
    ∃ rest, (contents f size).Perm ((f i).toList ++ rest) ∧
      (contents g size).Perm ((g i).toList ++ rest) := by
  have hcons : ∀ f : Nat → Option α,
      (contents f size).Perm ((f i).toList ++ ((List.range size).erase i).filterMap f) := by
    intro f
    have hperm := (List.perm_cons_erase (List.mem_range.mpr hi)).filterMap f
    refine hperm.trans ?_
    cases hf : f i <;> simp [hf]
  refine ⟨((List.range size).erase i).filterMap f, hcons f, ?_⟩
  have hsame : ((List.range size).erase i).filterMap g = ((List.range size).erase i).filterMap f := by
    refine List.filterMap_congr fun j hj => h j ?_
    rintro rfl
    exact List.nodup_range.not_mem_erase hj
  rw [← hsame]
  exact hcons g

/-- What was in one cell is now in another. -/
theorem contents_move {j : Nat} (hi : i < size) (hj : j < size) (hij : i ≠ j) (hfj : f j = none)
    (hgi : g i = none) (hgj : g j = f i) (h : ∀ x, x ≠ i → x ≠ j → g x = f x) :
    (contents g size).Perm (contents f size) := by
  have hmid : ∀ x, x ≠ i → (fun x => if x = i then none else f x) x = f x := fun x hx => if_neg hx
  have hlast : ∀ x, x ≠ j → g x = (fun x => if x = i then none else f x) x := by
    intro x hx
    by_cases hxi : x = i
    · simp only [hxi, hgi, if_true]
    · simp only [hxi, if_false]
      exact h x hxi hx
  obtain ⟨rest, hf, hm⟩ := contents_split hi hmid
  obtain ⟨rest', hm', hg⟩ := contents_split hj hlast
  simp only [if_true, Option.toList_none, List.nil_append] at hm
  simp only [if_neg (Ne.symm hij), hfj, Option.toList_none, List.nil_append] at hm'
  rw [hgj] at hg
  exact hg.trans (((hm'.symm.trans hm).append_left _).trans hf.symm)

theorem contents_length_of_full (h : ∀ i < size, (f i).isSome) : (contents f size).length = size := by
  have hcount : ∀ l : List Nat, (∀ i ∈ l, (f i).isSome) → (l.filterMap f).length = l.length := by
    intro l
    induction l with
    | nil => exact fun _ => rfl
    | cons i l ih =>
      intro hl
      obtain ⟨a, ha⟩ := Option.isSome_iff_exists.mp (hl i List.mem_cons_self)
      rw [List.filterMap_cons_some ha, List.length_cons, List.length_cons,
        ih fun j hj => hl j (List.mem_cons_of_mem _ hj)]
  rw [contents, hcount _ fun i hi => h i (List.mem_range.mp hi), List.length_range]

end Contents

/-- A chained scatter table. Every key can be reached from its home, and where a key has its home there
is one that is at home. -/
structure Scattered (size : Nat) (home : κ → Nat) (key : Nat → Option κ) (next : Nat → Option Nat) :
    Prop where
  lt : ∀ {i k}, key i = some k → i < size
  linked : ∀ {i j}, next i = some j → (key i).isSome ∧ (key j).isSome
  inj : ∀ {i j m}, next i = some m → next j = some m → i = j
  reach : ∀ {i k}, key i = some k → ∃ l, Path next (home k) l ∧ i ∈ l
  home : ∀ {i k}, key i = some k → ∃ k', key (home k) = some k' ∧ home k' = home k

section Cells

variable {size : Nat} {home : κ → Nat} {key key' : Nat → Option κ} {next next' : Nat → Option Nat}
  {m n i : Nat} {k c : κ} {l : List Nat}

theorem Scattered.empty (hkey : ∀ i, key i = none) (hnext : ∀ i, next i = none) :
    Scattered size home key next := by
  constructor
  · intro i k h
    rw [hkey] at h
    cases h
  · intro i j h
    rw [hnext] at h
    cases h
  · intro i j m h
    rw [hnext] at h
    cases h
  · intro i k h
    rw [hkey] at h
    cases h
  · intro i k h
    rw [hkey] at h
    cases h

theorem Scattered.used (h : Scattered size home key next) (hp : Path next i l)
    (hi : (key i).isSome) : ∀ x ∈ l, (key x).isSome := by
  induction hp with
  | last _ =>
    intro x hx
    rw [List.mem_singleton.mp hx]
    exact hi
  | step hsome _ ih =>
    intro x hx
    rcases List.mem_cons.mp hx with rfl | hx
    · exact hi
    · exact ih (h.linked hsome).2 x hx

theorem Scattered.not_mem (h : Scattered size home key next) (hp : Path next i l)
    (hi : (key i).isSome) (hn : key n = none) : n ∉ l := by
  intro hmem
  have hused := h.used hp hi n hmem
  rw [hn] at hused
  cases hused

theorem Scattered.length_le (h : Scattered size home key next) (hp : Path next i l)
    (hi : (key i).isSome) : l.length ≤ size := by
  have hsub : l ⊆ List.range size := by
    intro x hx
    obtain ⟨k, hk⟩ := Option.isSome_iff_exists.mp (h.used hp hi x hx)
    exact List.mem_range.mpr (h.lt hk)
  have hlen := (hp.nodup.subperm hsub).length_le
  rwa [List.length_range] at hlen

/-- The chain of a key, from its home on. -/
theorem Scattered.chain (h : Scattered size home key next) (hk : key i = some k) :
    ∃ l, Path next (home k) l ∧ i ∈ l ∧ l.length ≤ size ∧ ∀ x ∈ l, (key x).isSome := by
  obtain ⟨l, hp, hi⟩ := h.reach hk
  obtain ⟨k', hk', -⟩ := h.home hk
  have hsome : (key (home k)).isSome := Option.isSome_iff_exists.mpr ⟨k', hk'⟩
  exact ⟨l, hp, hi, h.length_le hp hsome, h.used hp hsome⟩

/-- A key that is stored is found from its home, when it is the only one of its kind. -/
theorem Scattered.find_some (h : Scattered size home key next) (hk : key i = some k)
    {p : Nat → Bool} (hp : p i = true) (honly : ∀ x, (key x).isSome → p x = true → x = i) :
    find next p size (home k) = some i := by
  obtain ⟨l, hl, hi, hlen, hused⟩ := h.chain hk
  rw [hl.find_eq p hlen]
  cases hfind : l.find? p with
  | none => exact absurd hp (by simpa using List.find?_eq_none.mp hfind i hi)
  | some x =>
    rw [honly x (hused x (List.mem_of_find?_eq_some hfind)) (List.find?_some hfind)]

/-- A key comes to its home, where there is none that is in use. -/
theorem Scattered.put (h : Scattered size home key next) (hlt : home k < size)
    (hnew : key' (home k) = some k) (hold : ∀ i, i ≠ home k → key' i = key i) :
    Scattered size home key' next := by
  have hmono : ∀ i, (key i).isSome → (key' i).isSome := by
    intro i hi
    by_cases heq : i = home k
    · rw [heq, hnew]
      rfl
    · rwa [hold i heq]
  constructor
  · intro i k' hi
    by_cases heq : i = home k
    · rwa [heq]
    · rw [hold i heq] at hi
      exact h.lt hi
  · intro i j hi
    exact (h.linked hi).imp (hmono i) (hmono j)
  · exact h.inj
  · intro i k' hi
    by_cases heq : i = home k
    · subst heq
      rw [hnew] at hi
      cases hi
      cases hkey : key (home k) with
      | none =>
        have hnext : next (home k) = none := by
          cases hnext : next (home k) with
          | none => rfl
          | some j =>
            have hsome := (h.linked hnext).1
            rw [hkey] at hsome
            cases hsome
        exact ⟨_, .last hnext, List.mem_singleton.mpr rfl⟩
      | some k0 =>
        obtain ⟨l, hp, hmem⟩ := h.reach hkey
        obtain ⟨l', hp', -⟩ := hp.suffix hmem
        exact ⟨l', hp', hp'.head_mem⟩
    · rw [hold i heq] at hi
      exact h.reach hi
  · intro i k' hi
    have hhome : ∃ k0, key' (home k) = some k0 ∧ home k0 = home k := ⟨k, hnew, rfl⟩
    by_cases heq : home k' = home k
    · rw [heq]
      exact hhome
    · have hi' : i ≠ home k := by
        rintro rfl
        rw [hnew] at hi
        cases hi
        exact heq rfl
      rw [hold i hi'] at hi
      rw [hold _ heq]
      exact h.home hi

/-- The chain through `m` with the cell `n` after it. -/
theorem Path.link (hp : Path next i l) (hn : n ∉ l) (hm' : next' m = some n)
    (hn' : next' n = next m) (hother : ∀ i, i ≠ m → i ≠ n → next' i = next i) :
    ∃ l', Path next' i l' ∧ (∀ x ∈ l, x ∈ l') ∧ (m ∈ l → n ∈ l') ∧
      ∀ p : Nat → Bool, p n = false → l'.find? p = l.find? p := by
  induction hp with
  | @last i hnone =>
    have hin : i ≠ n := fun heq => hn (heq ▸ List.mem_singleton.mpr rfl)
    by_cases him : i = m
    · subst him
      refine ⟨[i, n], .step hm' (.last (hn'.trans hnone)), by simp, by simp, fun p hpn => ?_⟩
      simp only [List.find?_cons, hpn, List.find?_nil]
    · refine ⟨[i], .last ((hother i him hin).trans hnone), fun x hx => hx, fun hm => ?_,
        fun _ _ => rfl⟩
      exact absurd (List.mem_singleton.mp hm).symm him
  | @step i j l hsome _ ih =>
    have hin : i ≠ n := fun heq => hn (heq ▸ List.mem_cons_self)
    obtain ⟨l', hp', hsub, hnew, hfind⟩ := ih fun hmem => hn (List.mem_cons_of_mem _ hmem)
    by_cases him : i = m
    · subst him
      refine ⟨i :: n :: l', .step hm' (.step (hn'.trans hsome) hp'), fun x hx => ?_, by simp,
        fun p hpn => ?_⟩
      · rcases List.mem_cons.mp hx with rfl | hx
        · exact List.mem_cons_self
        · exact List.mem_cons_of_mem _ (List.mem_cons_of_mem _ (hsub x hx))
      · simp only [List.find?_cons, hpn, hfind p hpn]
    · refine ⟨i :: l', .step ((hother i him hin).trans hsome) hp', fun x hx => ?_, fun hm => ?_,
        fun p hpn => ?_⟩
      · rcases List.mem_cons.mp hx with rfl | hx
        · exact List.mem_cons_self
        · exact List.mem_cons_of_mem _ (hsub x hx)
      · exact List.mem_cons_of_mem _ (hnew ((List.mem_cons.mp hm).resolve_left (Ne.symm him)))
      · simp only [List.find?_cons, hfind p hpn]

/-- A key whose home is taken by one that is at home comes to a free cell, linked after its home. -/
theorem Scattered.link (h : Scattered size home key next) (hc : key m = some c) (hcm : home c = m)
    (hkm : home k = m) (hfree : key n = none) (hlt : n < size) (hnew : key' n = some k)
    (hold : ∀ i, i ≠ n → key' i = key i) (hm' : next' m = some n) (hn' : next' n = next m)
    (hother : ∀ i, i ≠ m → i ≠ n → next' i = next i) : Scattered size home key' next' := by
  have hmn : m ≠ n := by
    rintro rfl
    rw [hfree] at hc
    cases hc
  have hmono : ∀ i, (key i).isSome → (key' i).isSome := by
    intro i hi
    by_cases heq : i = n
    · rw [heq, hfree] at hi
      cases hi
    · rwa [hold i heq]
  have hpath : ∀ {i l}, Path next i l → (key i).isSome →
      ∃ l', Path next' i l' ∧ (∀ x ∈ l, x ∈ l') ∧ (m ∈ l → n ∈ l') := by
    intro i l hp hi
    obtain ⟨l', hp', hsub, hin, -⟩ := hp.link (h.not_mem hp hi hfree) hm' hn' hother
    exact ⟨l', hp', hsub, hin⟩
  have hmsome : (key m).isSome := by
    rw [hc]
    rfl
  -- no cell had a link to the one that was free
  have hnone : ∀ i, next i ≠ some n := by
    intro i hi
    have hused := (h.linked hi).2
    rw [hfree] at hused
    cases hused
  constructor
  · intro i k' hi
    by_cases heq : i = n
    · rwa [heq]
    · rw [hold i heq] at hi
      exact h.lt hi
  · intro i j hi
    by_cases him : i = m
    · rw [him, hm'] at hi
      cases hi
      rw [him]
      exact ⟨hmono m hmsome, by rw [hnew]; rfl⟩
    · by_cases hin : i = n
      · rw [hin, hn'] at hi
        rw [hin]
        exact ⟨by rw [hnew]; rfl, hmono j (h.linked hi).2⟩
      · rw [hother i him hin] at hi
        exact (h.linked hi).imp (hmono i) (hmono j)
  · intro i j x hi hj
    have hcases : ∀ i, next' i = some x → (i = m ∧ x = n) ∨ (i = n ∧ next m = some x) ∨
        (i ≠ m ∧ i ≠ n ∧ next i = some x) := by
      intro i hi
      by_cases him : i = m
      · rw [him, hm'] at hi
        cases hi
        exact .inl ⟨him, rfl⟩
      · by_cases hin : i = n
        · rw [hin, hn'] at hi
          exact .inr (.inl ⟨hin, hi⟩)
        · rw [hother i him hin] at hi
          exact .inr (.inr ⟨him, hin, hi⟩)
    rcases hcases i hi with ⟨him, hx⟩ | ⟨hin, hx⟩ | ⟨him, hin, hx⟩
    · rcases hcases j hj with ⟨hjm, -⟩ | ⟨-, hx'⟩ | ⟨-, -, hx'⟩
      · rw [him, hjm]
      · rw [hx] at hx'
        exact absurd hx' (hnone m)
      · rw [hx] at hx'
        exact absurd hx' (hnone j)
    · rcases hcases j hj with ⟨-, hx'⟩ | ⟨hjn, -⟩ | ⟨hjm, -, hx'⟩
      · rw [hx'] at hx
        exact absurd hx (hnone m)
      · rw [hin, hjn]
      · exact absurd (h.inj hx' hx) hjm
    · rcases hcases j hj with ⟨-, hx'⟩ | ⟨-, hx'⟩ | ⟨-, -, hx'⟩
      · rw [hx'] at hx
        exact absurd hx (hnone i)
      · exact absurd (h.inj hx hx') him
      · exact h.inj hx hx'
  · intro i k' hi
    by_cases heq : i = n
    · subst heq
      rw [hnew] at hi
      cases hi
      obtain ⟨l, hp, hmem⟩ := h.reach hc
      rw [hcm] at hp
      obtain ⟨l', hp', -, hn⟩ := hpath hp hmsome
      rw [hkm]
      exact ⟨l', hp', hn hmem⟩
    · rw [hold i heq] at hi
      obtain ⟨l, hp, hmem⟩ := h.reach hi
      obtain ⟨k0, hk0, -⟩ := h.home hi
      obtain ⟨l', hp', hsub, -⟩ := hpath hp (by rw [hk0]; rfl)
      exact ⟨l', hp', hsub i hmem⟩
  · intro i k' hi
    by_cases heq : i = n
    · subst heq
      rw [hnew] at hi
      cases hi
      rw [hkm, hold m hmn]
      exact ⟨c, hc, hcm⟩
    · rw [hold i heq] at hi
      obtain ⟨k0, hk0, hhome⟩ := h.home hi
      have hne : home k' ≠ n := by
        intro heq
        rw [heq, hfree] at hk0
        cases hk0
      exact ⟨k0, by rw [hold _ hne]; exact hk0, hhome⟩

/-- The keys that were there are found as before. -/
theorem Scattered.link_find (h : Scattered size home key next) (h' : Scattered size home key' next')
    (hfree : key n = none) (hold : ∀ i, i ≠ n → key' i = key i) (hm' : next' m = some n)
    (hn' : next' n = next m) (hother : ∀ i, i ≠ m → i ≠ n → next' i = next i) (hk : key i = some k)
    {p q : Nat → Bool} (hpn : p n = false) (hpq : ∀ x, x ≠ n → p x = q x) :
    find next' p size (home k) = find next q size (home k) := by
  obtain ⟨l, hp, -, hlen, hused⟩ := h.chain hk
  have hhome := hused _ hp.head_mem
  have hn := h.not_mem hp hhome hfree
  obtain ⟨l', hp', -, -, hfind⟩ := hp.link hn hm' hn' hother
  have hne : home k ≠ n := fun heq => hn (heq ▸ hp.head_mem)
  have hlen' := h'.length_le hp' (by rw [hold _ hne]; exact hhome)
  rw [hp'.find_eq p hlen', hp.find_eq q hlen, hfind p hpn]
  refine List.find?_congr fun x hx => hpq x ?_
  rintro rfl
  exact hn hx

/-- The chain through `m` with the cell `n` in its place. -/
theorem Path.move {p : Nat} (hp : Path next i l) (hn : n ∉ l) (hpm : next p = some m) (hne : p ≠ m)
    (hinj : ∀ {i j x}, next i = some x → next j = some x → i = j)
    (hp' : next' p = some n) (hn' : next' n = next m)
    (hother : ∀ i, i ≠ m → i ≠ n → i ≠ p → next' i = next i) :
    Path next' (if i = m then n else i) (l.map fun x => if x = m then n else x) := by
  induction hp with
  | @last i hnone =>
    have hin : i ≠ n := fun heq => hn (heq ▸ List.mem_singleton.mpr rfl)
    refine .last ?_
    split_ifs with him
    · rw [hn', ← him, hnone]
    · have hip : i ≠ p := by
        rintro rfl
        rw [hpm] at hnone
        cases hnone
      rw [hother i him hin hip, hnone]
  | @step i j l hsome _ ih =>
    have hin : i ≠ n := fun heq => hn (heq ▸ List.mem_cons_self)
    refine .step ?_ (ih fun hmem => hn (List.mem_cons_of_mem _ hmem))
    by_cases him : i = m
    · have hjm : j ≠ m := by
        intro hjm
        rw [hjm] at hsome
        exact hne ((hinj hpm hsome).trans him)
      rw [if_pos him, if_neg hjm, hn', ← him, hsome]
    · by_cases hip : i = p
      · rw [hip, hpm] at hsome
        cases hsome
        rw [if_neg him, if_pos rfl, hip, hp']
      · have hjm : j ≠ m := by
          intro hjm
          rw [hjm] at hsome
          exact hip (hinj hsome hpm)
        rw [if_neg him, if_neg hjm, hother i him hin hip, hsome]

/-- No key has its home where there is one that is not at home. -/
theorem Scattered.away (h : Scattered size home key next) (hc : key m = some c) (hcm : home c ≠ m)
    (hk : key i = some k) : home k ≠ m := by
  intro heq
  obtain ⟨k0, hk0, hhome⟩ := h.home hk
  rw [heq, hc] at hk0
  cases hk0
  exact hcm (hhome.trans heq)

/-- A key whose home is taken by one that is not at home: that one goes to a free cell, with its place in
its chain, and the key takes the cell. -/
theorem Scattered.move {p : Nat} (h : Scattered size home key next) (hc : key m = some c)
    (hcm : home c ≠ m) (hkm : home k = m) (hfree : key n = none) (hlt : n < size)
    (hpm : next p = some m) (hnew : key' m = some k) (hmoved : key' n = some c)
    (hold : ∀ i, i ≠ m → i ≠ n → key' i = key i) (hp' : next' p = some n) (hn' : next' n = next m)
    (hm' : next' m = none) (hother : ∀ i, i ≠ m → i ≠ n → i ≠ p → next' i = next i) :
    Scattered size home key' next' := by
  have hmn : m ≠ n := by
    rintro rfl
    rw [hfree] at hc
    cases hc
  have hne : p ≠ m := by
    rintro rfl
    obtain ⟨l, hp, hmem⟩ := h.reach hc
    obtain ⟨l', hl', -⟩ := hp.suffix hmem
    exact hl'.next_ne hpm
  have hpn : p ≠ n := by
    rintro rfl
    have hused := (h.linked hpm).1
    rw [hfree] at hused
    cases hused
  have hmono : ∀ i, (key i).isSome → (key' i).isSome := by
    intro i hi
    by_cases him : i = m
    · rw [him, hnew]
      rfl
    · by_cases hin : i = n
      · rw [hin, hmoved]
        rfl
      · rwa [hold i him hin]
  have hnone : ∀ i, next i ≠ some n := by
    intro i hi
    have hused := (h.linked hi).2
    rw [hfree] at hused
    cases hused
  -- a key other than the new one is where it was, or it is the one that has been moved
  have hcases : ∀ {i k'}, key' i = some k' → (i = m ∧ k' = k) ∨ (i = n ∧ k' = c) ∨
      (i ≠ m ∧ i ≠ n ∧ key i = some k') := by
    intro i k' hi
    by_cases him : i = m
    · rw [him, hnew] at hi
      cases hi
      exact .inl ⟨him, rfl⟩
    · by_cases hin : i = n
      · rw [hin, hmoved] at hi
        cases hi
        exact .inr (.inl ⟨hin, rfl⟩)
      · rw [hold i him hin] at hi
        exact .inr (.inr ⟨him, hin, hi⟩)
  have haway : ∀ {i k'}, key i = some k' → home k' ≠ m := fun hi => h.away hc hcm hi
  have hreach : ∀ {i k'}, key i = some k' → ∃ l, Path next' (home k') l ∧
      (if i = m then n else i) ∈ l := by
    intro i k' hi
    obtain ⟨l, hp, hmem, -, hused⟩ := h.chain hi
    have hn := h.not_mem hp (hused _ hp.head_mem) hfree
    have hmoved := hp.move hn hpm hne h.inj hp' hn' hother
    rw [if_neg (haway hi)] at hmoved
    exact ⟨_, hmoved, List.mem_map.mpr ⟨i, hmem, rfl⟩⟩
  have hstays : ∀ {i k'}, key i = some k' → ∃ k0, key' (home k') = some k0 ∧ home k0 = home k' := by
    intro i k' hi
    obtain ⟨k0, hk0, hhome⟩ := h.home hi
    have hn : home k' ≠ n := by
      intro heq
      rw [heq, hfree] at hk0
      cases hk0
    exact ⟨k0, by rw [hold _ (haway hi) hn]; exact hk0, hhome⟩
  constructor
  · intro i k' hi
    rcases hcases hi with ⟨him, -⟩ | ⟨hin, -⟩ | ⟨-, -, hi⟩
    · rw [him]
      exact h.lt hc
    · rwa [hin]
    · exact h.lt hi
  · intro i j hi
    have hmsome : (key' m).isSome := by
      rw [hnew]
      rfl
    have hnsome : (key' n).isSome := by
      rw [hmoved]
      rfl
    by_cases hip : i = p
    · rw [hip, hp'] at hi
      cases hi
      rw [hip]
      exact ⟨hmono p (h.linked hpm).1, hnsome⟩
    · by_cases him : i = m
      · rw [him, hm'] at hi
        cases hi
      · by_cases hin : i = n
        · rw [hin, hn'] at hi
          rw [hin]
          exact ⟨hnsome, hmono j (h.linked hi).2⟩
        · rw [hother i him hin hip] at hi
          exact (h.linked hi).imp (hmono i) (hmono j)
  · intro i j x hi hj
    have hlinks : ∀ i, next' i = some x → (i = p ∧ x = n) ∨ (i = n ∧ next m = some x) ∨
        (i ≠ m ∧ i ≠ n ∧ i ≠ p ∧ next i = some x) := by
      intro i hi
      by_cases hip : i = p
      · rw [hip, hp'] at hi
        cases hi
        exact .inl ⟨hip, rfl⟩
      · by_cases him : i = m
        · rw [him, hm'] at hi
          cases hi
        · by_cases hin : i = n
          · rw [hin, hn'] at hi
            exact .inr (.inl ⟨hin, hi⟩)
          · rw [hother i him hin hip] at hi
            exact .inr (.inr ⟨him, hin, hip, hi⟩)
    rcases hlinks i hi with ⟨hip, hx⟩ | ⟨hin, hx⟩ | ⟨him, -, -, hx⟩
    · rcases hlinks j hj with ⟨hjp, -⟩ | ⟨-, hx'⟩ | ⟨-, -, -, hx'⟩
      · rw [hip, hjp]
      · rw [hx] at hx'
        exact absurd hx' (hnone m)
      · rw [hx] at hx'
        exact absurd hx' (hnone j)
    · rcases hlinks j hj with ⟨-, hx'⟩ | ⟨hjn, -⟩ | ⟨hjm, -, -, hx'⟩
      · rw [hx'] at hx
        exact absurd hx (hnone m)
      · rw [hin, hjn]
      · exact absurd (h.inj hx' hx) hjm
    · rcases hlinks j hj with ⟨-, hx'⟩ | ⟨-, hx'⟩ | ⟨-, -, -, hx'⟩
      · rw [hx'] at hx
        exact absurd hx (hnone i)
      · exact absurd (h.inj hx hx') him
      · exact h.inj hx hx'
  · intro i k' hi
    rcases hcases hi with ⟨rfl, rfl⟩ | ⟨rfl, rfl⟩ | ⟨him, -, hi⟩
    · rw [hkm]
      exact ⟨_, .last hm', List.mem_singleton.mpr rfl⟩
    · obtain ⟨l, hp, hmem⟩ := hreach hc
      rw [if_pos rfl] at hmem
      exact ⟨l, hp, hmem⟩
    · obtain ⟨l, hp, hmem⟩ := hreach hi
      rw [if_neg him] at hmem
      exact ⟨l, hp, hmem⟩
  · intro i k' hi
    rcases hcases hi with ⟨-, rfl⟩ | ⟨-, rfl⟩ | ⟨-, -, hi⟩
    · rw [hkm]
      exact ⟨_, hnew, hkm⟩
    · exact hstays hc
    · exact hstays hi

/-- The keys that were there are found as before, but for the one that has moved. -/
theorem Scattered.move_find {p : Nat} (h : Scattered size home key next)
    (h' : Scattered size home key' next') (hc : key m = some c) (hcm : home c ≠ m)
    (hfree : key n = none) (hpm : next p = some m) (hold : ∀ i, i ≠ m → i ≠ n → key' i = key i)
    (hp' : next' p = some n) (hn' : next' n = next m)
    (hother : ∀ i, i ≠ m → i ≠ n → i ≠ p → next' i = next i) (hk : key i = some k)
    {f g : Nat → Bool} (hfg : ∀ x, x ≠ n → f (if x = m then n else x) = g x) {j : Nat}
    (hfind : find next g size (home k) = some j) :
    find next' f size (home k) = some (if j = m then n else j) := by
  obtain ⟨l, hp, -, hlen, hused⟩ := h.chain hk
  have hhome := hused _ hp.head_mem
  have hn := h.not_mem hp hhome hfree
  have hne : p ≠ m := by
    rintro rfl
    obtain ⟨l, hp, hmem⟩ := h.reach hc
    obtain ⟨l', hl', -⟩ := hp.suffix hmem
    exact hl'.next_ne hpm
  have haway := h.away hc hcm hk
  have hmoved := hp.move hn hpm hne h.inj hp' hn' hother
  rw [if_neg haway] at hmoved
  have hhomen : home k ≠ n := fun heq => hn (heq ▸ hp.head_mem)
  have hlen' := h'.length_le hmoved (by rw [hold _ haway hhomen]; exact hhome)
  have hsame : l.find? (f ∘ fun x => if x = m then n else x) = l.find? g := by
    refine List.find?_congr fun x hx => hfg x ?_
    rintro rfl
    exact hn hx
  rw [hp.find_eq g hlen] at hfind
  rw [hmoved.find_eq f hlen', List.find?_map, hsame, hfind]
  rfl

end Cells

end UgmeeLua.Scatter

import UgmeeLua.Tablib.Sort

namespace UgmeeLua.Tablib

open Stateful

variable {V σ : Type}

/-- One table comes from another through a permutation of the places `l..u`. -/
def Permuted (l u : Int) (f g : Int → V) : Prop :=
  ∃ p : Equiv.Perm Int, (∀ i, p i ≠ i → l ≤ i ∧ i ≤ u) ∧ ∀ i, g i = f (p i)

section Permuted

variable {l u l' u' : Int} {f g h : Int → V}

theorem Permuted.refl (l u : Int) (f : Int → V) : Permuted l u f f :=
  ⟨Equiv.refl Int, fun _ hi => absurd rfl hi, fun _ => rfl⟩

theorem Permuted.trans (hfg : Permuted l u f g) (hgh : Permuted l u g h) : Permuted l u f h := by
  obtain ⟨p, hp, hg⟩ := hfg
  obtain ⟨q, hq, hh⟩ := hgh
  refine ⟨q.trans p, fun i hi => ?_, fun i => ?_⟩
  · by_cases hqi : q i = i
    · apply hp
      rwa [Equiv.trans_apply, hqi] at hi
    · exact hq i hqi
  · rw [hh, hg, Equiv.trans_apply]

theorem Permuted.mono (hfg : Permuted l' u' f g) (hl : l ≤ l') (hu : u' ≤ u) : Permuted l u f g := by
  obtain ⟨p, hp, hg⟩ := hfg
  refine ⟨p, fun i hi => ?_, hg⟩
  have hin := hp i hi
  omega

/-- Elements that are exchanged. -/
def swapped (f : Int → V) (i j : Int) : Int → V := fun k => f (Equiv.swap i j k)

theorem permuted_swapped {i j : Int} (hi : l ≤ i ∧ i ≤ u) (hj : l ≤ j ∧ j ≤ u) (f : Int → V) :
    Permuted l u f (swapped f i j) := by
  refine ⟨Equiv.swap i j, fun k hk => ?_, fun _ => rfl⟩
  rcases eq_or_ne k i with heq | hne
  · rwa [heq]
  · rcases eq_or_ne k j with heq | hne'
    · rwa [heq]
    · exact absurd (Equiv.swap_apply_of_ne_of_ne hne hne') hk

theorem swapped_eq (f : Int → V) (i j : Int) :
    Function.update (Function.update f i (f j)) j (f i) = swapped f i j := by
  funext k
  rcases eq_or_ne k j with hj | hj
  · rw [hj, Function.update_self, swapped, Equiv.swap_apply_right]
  · rw [Function.update_of_ne hj]
    rcases eq_or_ne k i with hi | hi
    · rw [hi, Function.update_self, swapped, Equiv.swap_apply_left]
    · rw [Function.update_of_ne hi, swapped, Equiv.swap_apply_of_ne_of_ne hi hj]

theorem swapped_left (f : Int → V) (i j : Int) : swapped f i j i = f j := by
  rw [swapped, Equiv.swap_apply_left]

theorem swapped_right (f : Int → V) (i j : Int) : swapped f i j j = f i := by
  rw [swapped, Equiv.swap_apply_right]

theorem swapped_other (f : Int → V) {i j k : Int} (hi : k ≠ i) (hj : k ≠ j) : swapped f i j k = f k := by
  rw [swapped, Equiv.swap_apply_of_ne_of_ne hi hj]

/-- An element of the range was there before. -/
theorem Permuted.elem (hfg : Permuted l u f g) {i : Int} (hi : l ≤ i ∧ i ≤ u) :
    ∃ j, (l ≤ j ∧ j ≤ u) ∧ g i = f j := by
  obtain ⟨p, hp, hg⟩ := hfg
  by_cases hpi : p i = i
  · exact ⟨i, hi, by rw [hg, hpi]⟩
  · refine ⟨p i, hp (p i) fun h => hpi (p.injective h), hg i⟩

theorem Permuted.outside (hfg : Permuted l u f g) {i : Int} (hi : i < l ∨ u < i) : g i = f i := by
  obtain ⟨p, hp, hg⟩ := hfg
  have hpi : p i = i := by
    by_contra hne
    have hin := hp i hne
    omega
  rw [hg, hpi]

/-- What holds of all elements of a range still holds of them. -/
theorem Permuted.all (hfg : Permuted l u f g) {P : V → Prop} (hf : ∀ i, l ≤ i → i ≤ u → P (f i)) (i : Int)
    (hl : l ≤ i) (hu : i ≤ u) : P (g i) := by
  obtain ⟨j, hj, hij⟩ := hfg.elem ⟨hl, hu⟩
  rw [hij]
  exact hf j hj.1 hj.2

end Permuted

/-- Nothing in the table is changed, and what is done meets `A`. -/
structure Looked (A : Event → Prop) (s s' : Sorting V σ) : Prop where
  t : s'.t = s.t
  log : ∀ e ∈ s'.log, e ∈ s.log ∨ A e

/-- The elements of the range are permuted, and what is done meets `A`. -/
structure Moved (A : Event → Prop) (l u : Int) (s s' : Sorting V σ) : Prop where
  permuted : Permuted l u s.t s'.t
  log : ∀ e ∈ s'.log, e ∈ s.log ∨ A e

section Moved

variable {A : Event → Prop} {l u l' u' : Int} {s s' s'' : Sorting V σ}

theorem Looked.trans (h : Looked A s s') (h' : Looked A s' s'') : Looked A s s'' :=
  ⟨h'.t.trans h.t, fun e he => (h'.log e he).elim (h.log e) .inr⟩

theorem Looked.moved (h : Looked A s s') (l u : Int) : Moved A l u s s' := by
  refine ⟨?_, h.log⟩
  rw [h.t]
  exact Permuted.refl l u s.t

theorem Moved.refl (A : Event → Prop) (l u : Int) (s : Sorting V σ) : Moved A l u s s :=
  ⟨Permuted.refl l u s.t, fun _ he => .inl he⟩

theorem Moved.trans (h : Moved A l u s s') (h' : Moved A l u s' s'') : Moved A l u s s'' :=
  ⟨h.permuted.trans h'.permuted, fun e he => (h'.log e he).elim (h.log e) .inr⟩

theorem Moved.mono {B : Event → Prop} (h : Moved A l' u' s s') (hl : l ≤ l') (hu : u' ≤ u)
    (hAB : ∀ e, A e → B e) : Moved B l u s s' :=
  ⟨h.permuted.mono hl hu, fun e he => (h.log e he).imp_right (hAB e)⟩

theorem rawgeti_looks {i : Int} (hA : A (.read i)) (s : Sorting V σ) {err : SortFault → Sorting V σ → Prop} :
    EndsIn (rawgeti i s) (fun v s' => v = s.t i ∧ Looked A s s') err := by
  refine ⟨rfl, rfl, fun e he => ?_⟩
  rcases List.mem_cons.mp he with heq | hin
  · rw [heq]
    exact .inr hA
  · exact .inl hin

end Moved

/-- What a comparison function may answer; it leaves the table alone. -/
def Answers (less : Comparison V σ) (truth : V → V → Bool → Prop) : Prop :=
  ∀ a b t o, (less a b t o).2.1 = t ∧ truth a b (less a b t o).1

/-- The answers put one element up to another. -/
def Upto (truth : V → V → Bool → Prop) (a b : V) : Prop := truth b a false ∨ truth a b true

/-- Answers on elements that go against each other. -/
def Odd (truth : V → V → Bool → Prop) (elem : V → Prop) : Prop :=
  ∃ a b, elem a ∧ elem b ∧ Upto truth a b ∧ truth b a true

/-- What is done stays in the range, unless the answers go against each other. -/
def Tame (truth : V → V → Bool → Prop) (elem : V → Prop) (l u : Int) : Event → Prop
  | .read i => (l ≤ i ∧ i ≤ u) ∨ Odd truth elem
  | .write i => l ≤ i ∧ i ≤ u
  | .up .. => True

/-- On the way up, an element behind the range is taken for one that is not less than the pivot. -/
def Event.behind : Event → Bool
  | .up u i answer => i == u + 1 && !answer
  | _ => false

def Astray (s : Sorting V σ) : Prop := ∃ e ∈ s.log, e.behind = true

instance (s : Sorting V σ) : Decidable (Astray s) :=
  inferInstanceAs (Decidable (∃ e ∈ s.log, e.behind = true))

section Astray

variable {less : Comparison V σ}

theorem keeps_rawgeti (i : Int) : KeepsInv Astray (rawgeti i : Sorter V σ V) := by
  rintro s ⟨e, he, hb⟩
  exact ⟨e, List.mem_cons_of_mem _ he, hb⟩

theorem keeps_set2 (i j : Int) (x y : V) : KeepsInv Astray (set2 i j x y : Sorter V σ Unit) := by
  rintro s ⟨e, he, hb⟩
  exact ⟨e, List.mem_cons_of_mem _ (List.mem_cons_of_mem _ he), hb⟩

theorem keeps_note (e' : Event) : KeepsInv Astray (note e' : Sorter V σ Unit) := by
  rintro s ⟨e, he, hb⟩
  exact ⟨e, List.mem_cons_of_mem _ he, hb⟩

theorem keeps_sortComp (a b : V) : KeepsInv Astray (sortComp less a b) := fun _ h => h

theorem keeps_sortEnds (l u : Int) : KeepsInv Astray (sortEnds less l u) := by
  refine keeps_bind (keeps_rawgeti l) fun al => keeps_bind (keeps_rawgeti u) fun au => ?_
  refine keeps_bind (keeps_sortComp au al) fun answer => ?_
  exact keeps_ite (keeps_set2 l u au al) (keeps_pure ())

theorem keeps_sortMiddle (l i u : Int) : KeepsInv Astray (sortMiddle less l i u) := by
  refine keeps_bind (keeps_rawgeti i) fun ai => keeps_bind (keeps_rawgeti l) fun al => ?_
  refine keeps_bind (keeps_sortComp ai al) fun answer => ?_
  refine keeps_ite (keeps_set2 i l al ai) (keeps_bind (keeps_rawgeti u) fun au => ?_)
  refine keeps_bind (keeps_sortComp au ai) fun answer' => ?_
  exact keeps_ite (keeps_set2 i u au ai) (keeps_pure ())

theorem keeps_takePivot (i u : Int) : KeepsInv Astray (takePivot i u : Sorter V σ V) := by
  refine keeps_bind (keeps_rawgeti i) fun p => keeps_bind (keeps_rawgeti (u - 1)) fun b => ?_
  exact keeps_bind (keeps_set2 i (u - 1) b p) fun _ => keeps_pure p

theorem keeps_scanUp (p : V) (u : Int) (n : Nat) (i : Int) : KeepsInv Astray (scanUp less p u n i) := by
  induction n generalizing i with
  | zero => exact keeps_throw _
  | succ n ih =>
    refine keeps_bind (keeps_rawgeti (i + 1)) fun v => keeps_bind (keeps_sortComp v p) fun answer => ?_
    refine keeps_bind (keeps_note _) fun _ => keeps_ite ?_ (keeps_pure _)
    exact keeps_ite (keeps_throw _) (ih (i + 1))

theorem keeps_scanDown (p : V) (l : Int) (n : Nat) (j : Int) : KeepsInv Astray (scanDown less p l n j) := by
  induction n generalizing j with
  | zero => exact keeps_throw _
  | succ n ih =>
    refine keeps_bind (keeps_rawgeti (j - 1)) fun v => keeps_bind (keeps_sortComp p v) fun answer => ?_
    exact keeps_ite (keeps_ite (keeps_throw _) (ih (j - 1))) (keeps_pure _)

theorem keeps_partitionLoop (p : V) (l u : Int) (n : Nat) (i j : Int) :
    KeepsInv Astray (partitionLoop less p l u n i j) := by
  induction n generalizing i j with
  | zero => exact keeps_throw _
  | succ n ih =>
    refine keeps_bind (keeps_scanUp p u _ i) fun up => keeps_bind (keeps_scanDown p l _ j) fun down => ?_
    exact keeps_ite (keeps_pure _) (keeps_bind (keeps_set2 _ _ _ _) fun _ => ih up.1 down.1)

/-- The pivot always gets to its place. -/
theorem placePivot_astray (i u : Int) {s : Sorting V σ} (h : Astray s)
    {err : SortFault → Sorting V σ → Prop} :
    EndsIn (placePivot i u s) (fun _ s' => Astray s') err := by
  obtain ⟨e, he, hb⟩ := h
  have hread := List.mem_cons_of_mem (.read i) (List.mem_cons_of_mem (.read (u - 1)) he)
  exact ⟨e, List.mem_cons_of_mem (.write i) (List.mem_cons_of_mem (.write (u - 1)) hread), hb⟩

theorem keeps_sortPass (l u : Int) : KeepsInv Astray (sortPass less l u) := by
  refine keeps_bind (keeps_sortEnds l u) fun _ => keeps_ite (keeps_pure none) ?_
  refine keeps_bind (keeps_sortMiddle l _ u) fun _ => keeps_ite (keeps_pure none) ?_
  refine keeps_bind (keeps_takePivot _ u) fun p => keeps_bind (keeps_partitionLoop p l u _ l (u - 1))
    fun i => ?_
  exact fun s hs => ends_bind (placePivot_astray i u hs) fun _ s' hs' => ends_pure hs'

theorem keeps_auxsort (n : Nat) (l u : Int) : KeepsInv Astray (auxsort less n l u) := by
  induction n generalizing l u with
  | zero => exact keeps_throw _
  | succ n ih =>
    refine keeps_ite (keeps_bind (keeps_sortPass l u) fun place => ?_) (keeps_pure ())
    cases place with
    | none => exact keeps_pure ()
    | some i => exact keeps_ite (keeps_bind (ih _ _) fun _ => ih _ _) (keeps_bind (ih _ _) fun _ => ih _ _)

end Astray

section Pass

variable {less : Comparison V σ} {truth : V → V → Bool → Prop} {elem : V → Prop} {l u : Int}
  {s : Sorting V σ} {err : SortFault → Sorting V σ → Prop}

theorem sortComp_looks (hless : Answers less truth) (A : Event → Prop) (a b : V) (s : Sorting V σ) :
    EndsIn (sortComp less a b s) (fun r s' => truth a b r ∧ Looked A s s') err :=
  ⟨(hless a b s.t s.o).2, (hless a b s.t s.o).1, fun _ he => .inl he⟩

theorem set2_swaps {i j : Int} {x y : V} (hx : x = s.t j) (hy : y = s.t i) (hi : l ≤ i ∧ i ≤ u)
    (hj : l ≤ j ∧ j ≤ u) :
    EndsIn (set2 i j x y s)
      (fun _ s' => s'.t = swapped s.t i j ∧ Moved (Tame truth elem l u) l u s s') err := by
  subst hx hy
  have ht : Function.update (Function.update s.t i (s.t j)) j (s.t i) = swapped s.t i j := swapped_eq s.t i j
  refine ⟨ht, ?_, fun e he => ?_⟩
  · change Permuted l u s.t (Function.update (Function.update s.t i (s.t j)) j (s.t i))
    rw [ht]
    exact permuted_swapped hi hj s.t
  · rcases List.mem_cons.mp he with heq | he
    · rw [heq]
      exact .inr hj
    · rcases List.mem_cons.mp he with heq | he
      · rw [heq]
        exact .inr hi
      · exact .inl he

theorem sortEnds_upto (hless : Answers less truth) (hlu : l < u) (s : Sorting V σ) :
    EndsIn (sortEnds less l u s)
      (fun _ s' => Upto truth (s'.t l) (s'.t u) ∧ Moved (Tame truth elem l u) l u s s') err := by
  have hl : l ≤ l ∧ l ≤ u := by omega
  have hu : l ≤ u ∧ u ≤ u := by omega
  refine ends_bind (rawgeti_looks (A := Tame truth elem l u) (.inl hl) s) fun al s1 h1 => ?_
  refine ends_bind (rawgeti_looks (A := Tame truth elem l u) (.inl hu) s1) fun au s2 h2 => ?_
  refine ends_bind (sortComp_looks hless (Tame truth elem l u) au al s2) fun answer s3 h3 => ?_
  have hal : al = s3.t l := by rw [h1.1, h3.2.t, h2.2.t, h1.2.t]
  have hau : au = s3.t u := by rw [h2.1, h3.2.t, h2.2.t]
  have hmoved := ((h1.2.trans h2.2).trans h3.2).moved l u
  have hanswer := h3.1
  rw [hal, hau] at hanswer
  cases answer with
  | true =>
    refine ends_mono (set2_swaps hau hal hl hu) (fun _ s4 h4 => ⟨.inr ?_, hmoved.trans h4.2⟩) fun _ _ h => h
    rw [h4.1, swapped_left, swapped_right]
    exact hanswer
  | false => exact ends_pure ⟨.inl hanswer, hmoved⟩

theorem sortMiddle_upto (hless : Answers less truth) {i : Int} (hli : l < i) (hiu : i < u) (s : Sorting V σ)
    (hends : Upto truth (s.t l) (s.t u)) :
    EndsIn (sortMiddle less l i u s)
      (fun _ s' => (Upto truth (s'.t l) (s'.t i) ∧ Upto truth (s'.t i) (s'.t u)) ∧
        Moved (Tame truth elem l u) l u s s') err := by
  have hl : l ≤ l ∧ l ≤ u := by omega
  have hi : l ≤ i ∧ i ≤ u := by omega
  have hu : l ≤ u ∧ u ≤ u := by omega
  refine ends_bind (rawgeti_looks (A := Tame truth elem l u) (.inl hi) s) fun ai s1 h1 => ?_
  refine ends_bind (rawgeti_looks (A := Tame truth elem l u) (.inl hl) s1) fun al s2 h2 => ?_
  refine ends_bind (sortComp_looks hless (Tame truth elem l u) ai al s2) fun answer s3 h3 => ?_
  have ht3 : s3.t = s.t := by rw [h3.2.t, h2.2.t, h1.2.t]
  have hai : ai = s3.t i := by rw [h1.1, ht3]
  have hal : al = s3.t l := by rw [h2.1, h3.2.t, h2.2.t]
  have hlook := (h1.2.trans h2.2).trans h3.2
  have hanswer := h3.1
  rw [hai, hal] at hanswer
  rw [← ht3] at hends
  cases answer with
  | true =>
    refine ends_mono (set2_swaps hal hai hi hl)
      (fun _ s4 h4 => ⟨⟨.inr ?_, ?_⟩, (hlook.moved l u).trans h4.2⟩) fun _ _ h => h
    · rw [h4.1, swapped_left, swapped_right]
      exact hanswer
    · rw [h4.1, swapped_left, swapped_other _ (by omega) (by omega)]
      exact hends
  | false =>
    refine ends_bind (rawgeti_looks (A := Tame truth elem l u) (.inl hu) s3) fun au s4 h4 => ?_
    refine ends_bind (sortComp_looks hless (Tame truth elem l u) au ai s4) fun answer' s5 h5 => ?_
    have ht5 : s5.t = s3.t := by rw [h5.2.t, h4.2.t]
    have hau : au = s5.t u := by rw [h4.1, ht5]
    rw [← ht5] at hends hai hanswer
    have hmoved := ((hlook.trans h4.2).trans h5.2).moved l u
    have hanswer' := h5.1
    rw [hau, hai] at hanswer'
    cases answer' with
    | true =>
      refine ends_mono (set2_swaps hau hai hi hu)
        (fun _ s6 h6 => ⟨⟨?_, .inr ?_⟩, hmoved.trans h6.2⟩) fun _ _ h => h
      · rw [h6.1, swapped_left, swapped_other _ (by omega) (by omega)]
        exact hends
      · rw [h6.1, swapped_left, swapped_right]
        exact hanswer'
    | false => exact ends_pure ⟨⟨.inl hanswer, .inl hanswer'⟩, hmoved⟩

theorem takePivot_swaps {i : Int} (hi : l ≤ i ∧ i ≤ u) (hlu : l < u) (s : Sorting V σ) :
    EndsIn (takePivot i u s) (fun p s' => p = s.t i ∧ s'.t = swapped s.t i (u - 1) ∧
      Moved (Tame truth elem l u) l u s s') err := by
  have hb : l ≤ u - 1 ∧ u - 1 ≤ u := by omega
  refine ends_bind (rawgeti_looks (A := Tame truth elem l u) (.inl hi) s) fun p s1 h1 => ?_
  refine ends_bind (rawgeti_looks (A := Tame truth elem l u) (.inl hb) s1) fun b s2 h2 => ?_
  have hlook := h1.2.trans h2.2
  have hp : p = s2.t i := by rw [h1.1, hlook.t]
  have hb' : b = s2.t (u - 1) := by rw [h2.1, h2.2.t]
  refine ends_bind (set2_swaps hb' hp hi hb) fun _ s3 h3 => ends_pure ⟨h1.1, ?_, (hlook.moved l u).trans h3.2⟩
  rw [h3.1, hlook.t]

theorem placePivot_swaps {i : Int} (hi : l ≤ i ∧ i ≤ u) (hlu : l < u) (s : Sorting V σ) :
    EndsIn (placePivot i u s) (fun _ s' => s'.t = swapped s.t (u - 1) i ∧
      Moved (Tame truth elem l u) l u s s') err := by
  have hb : l ≤ u - 1 ∧ u - 1 ≤ u := by omega
  refine ends_bind (rawgeti_looks (A := Tame truth elem l u) (.inl hb) s) fun p s1 h1 => ?_
  refine ends_bind (rawgeti_looks (A := Tame truth elem l u) (.inl hi) s1) fun ai s2 h2 => ?_
  have hlook := h1.2.trans h2.2
  have hp : p = s2.t (u - 1) := by rw [h1.1, hlook.t]
  have hai : ai = s2.t i := by rw [h2.1, h2.2.t]
  refine ends_mono (set2_swaps hai hp hb hi) (fun _ s3 h3 => ⟨?_, (hlook.moved l u).trans h3.2⟩)
    fun _ _ h => h
  rw [h3.1, hlook.t]

/-- Only elements from `a` up to `b` are read. -/
def Reads (a b : Int) : Event → Prop
  | .read i => a ≤ i ∧ i ≤ b
  | .write _ => False
  | .up .. => True

theorem Looked.reads {a b a' b' : Int} {s' : Sorting V σ} (h : Looked (Reads a b) s s') (ha : a' ≤ a)
    (hb : b ≤ b') : Looked (Reads a' b') s s' := by
  refine ⟨h.t, fun e he => (h.log e he).imp_right fun hread => ?_⟩
  cases e with
  | read i => exact ⟨by have := hread.1; omega, by have := hread.2; omega⟩
  | write i => exact hread
  | up u i answer => exact hread

/-- The way up from `i` ends at `r`. -/
structure FoundUp (truth : V → V → Bool → Prop) (p : V) (u i r : Int) (s s' : Sorting V σ) : Prop where
  above : i < r
  le : r ≤ u + 1
  passed : ∀ k, i < k → k < r → truth (s.t k) p true
  stops : truth (s.t r) p false
  astray : r = u + 1 → Astray s'
  looked : Looked (Reads (i + 1) r) s s'

/-- The way down from `j` ends at `r`. -/
structure FoundDown (truth : V → V → Bool → Prop) (p : V) (l j r : Int) (s s' : Sorting V σ) : Prop where
  below : r < j
  le : l - 1 ≤ r
  passed : ∀ k, r < k → k < j → truth p (s.t k) true
  stops : truth p (s.t r) false
  looked : Looked (Reads r (j - 1)) s s'

theorem scanUp_finds (hless : Answers less truth) (p : V) (n : Nat) (i : Int) (s : Sorting V σ) (hi : i ≤ u)
    (hn : (u + 1 - i).toNat < n) :
    EndsIn (scanUp less p u n i s) (fun r s' => r.2 = s.t r.1 ∧ FoundUp truth p u i r.1 s s')
      (fun e s' => e = .invalid ∧ (∀ k, i < k → k ≤ u + 1 → truth (s.t k) p true) ∧
        Looked (Reads (i + 1) (u + 1)) s s') := by
  induction n generalizing i s with
  | zero => omega
  | succ n ih =>
    have hread : Reads (i + 1) (i + 1) (.read (i + 1)) := by simp [Reads]
    refine ends_bind (rawgeti_looks hread s) fun v s1 h1 => ?_
    refine ends_bind (sortComp_looks hless (Reads (i + 1) (i + 1)) v p s1) fun answer s2 h2 => ?_
    let s3 : Sorting V σ := ⟨s2.t, .up u (i + 1) answer :: s2.log, s2.o⟩
    have hlook : Looked (Reads (i + 1) (i + 1)) s s3 := by
      have h12 := h1.2.trans h2.2
      refine ⟨h12.t, fun e he => ?_⟩
      rcases List.mem_cons.mp he with heq | hin
      · rw [heq]
        exact .inr trivial
      · exact h12.log e hin
    have hanswer := h2.1
    rw [h1.1] at hanswer
    refine ends_bind (ends_modify rfl) fun _ s' (hs' : s' = s3) => ?_
    subst hs'
    cases answer with
    | false =>
      refine ends_pure ⟨h1.1, by omega, by omega, by omega, hanswer, fun heq => ?_, hlook⟩
      refine ⟨.up u (i + 1) false, List.mem_cons_self, ?_⟩
      have hlast : i + 1 = u + 1 := heq
      simp [Event.behind, hlast]
    | true =>
      refine ends_ite (fun _ => ?_) fun h => absurd rfl h
      refine ends_ite (fun hlast => ?_) fun hlast => ?_
      · refine ends_throw ⟨rfl, fun k hik hku => ?_, hlook.reads (Int.le_refl _) (by omega)⟩
        have hk : k = i + 1 := by omega
        rw [hk]
        exact hanswer
      · refine ends_mono (ih (i + 1) s3 (by omega) (by omega)) (fun r s' h => ?_) fun e s' h => ?_
        · obtain ⟨hv, hfound⟩ := h
          have habove := hfound.above
          rw [hlook.t] at hv
          refine ⟨hv, by omega, hfound.le, fun k hik hkr => ?_, ?_, hfound.astray, ?_⟩
          · rcases eq_or_ne k (i + 1) with hk | hk
            · rw [hk]
              exact hanswer
            · rw [← hlook.t]
              exact hfound.passed k (by omega) hkr
          · rw [← hlook.t]
            exact hfound.stops
          · exact (hlook.reads (Int.le_refl _) (Int.le_of_lt habove)).trans
              (hfound.looked.reads (by omega) (Int.le_refl _))
        · obtain ⟨he, hall, hlook'⟩ := h
          refine ⟨he, fun k hik hku => ?_, ?_⟩
          · rcases eq_or_ne k (i + 1) with hk | hk
            · rw [hk]
              exact hanswer
            · rw [← hlook.t]
              exact hall k (by omega) hku
          · exact (hlook.reads (Int.le_refl _) (by omega)).trans (hlook'.reads (by omega) (Int.le_refl _))

theorem scanDown_finds (hless : Answers less truth) (p : V) (n : Nat) (j : Int) (s : Sorting V σ) (hj : l ≤ j)
    (hn : (j + 1 - l).toNat < n) :
    EndsIn (scanDown less p l n j s) (fun r s' => r.2 = s.t r.1 ∧ FoundDown truth p l j r.1 s s')
      (fun e s' => e = .invalid ∧ (∀ k, l - 1 ≤ k → k < j → truth p (s.t k) true) ∧
        Looked (Reads (l - 1) (j - 1)) s s') := by
  induction n generalizing j s with
  | zero => omega
  | succ n ih =>
    have hread : Reads (j - 1) (j - 1) (.read (j - 1)) := by simp [Reads]
    refine ends_bind (rawgeti_looks hread s) fun v s1 h1 => ?_
    refine ends_bind (sortComp_looks hless (Reads (j - 1) (j - 1)) p v s1) fun answer s2 h2 => ?_
    have hlook := h1.2.trans h2.2
    have hanswer := h2.1
    rw [h1.1] at hanswer
    cases answer with
    | false => exact ends_pure ⟨h1.1, by omega, by omega, by omega, hanswer, hlook⟩
    | true =>
      refine ends_ite (fun _ => ?_) fun h => absurd rfl h
      refine ends_ite (fun hlast => ?_) fun hlast => ?_
      · refine ends_throw ⟨rfl, fun k hlk hkj => ?_, hlook.reads (by omega) (Int.le_refl _)⟩
        have hk : k = j - 1 := by omega
        rw [hk]
        exact hanswer
      · refine ends_mono (ih (j - 1) s2 (by omega) (by omega)) (fun r s' h => ?_) fun e s' h => ?_
        · obtain ⟨hv, hfound⟩ := h
          have hbelow := hfound.below
          rw [hlook.t] at hv
          refine ⟨hv, by omega, hfound.le, fun k hrk hkj => ?_, ?_, ?_⟩
          · rcases eq_or_ne k (j - 1) with hk | hk
            · rw [hk]
              exact hanswer
            · rw [← hlook.t]
              exact hfound.passed k hrk (by omega)
          · rw [← hlook.t]
            exact hfound.stops
          · exact (hlook.reads (Int.le_of_lt hbelow) (Int.le_refl _)).trans
              (hfound.looked.reads (Int.le_refl _) (by omega))
        · obtain ⟨he, hall, hlook'⟩ := h
          refine ⟨he, fun k hlk hkj => ?_, ?_⟩
          · rcases eq_or_ne k (j - 1) with hk | hk
            · rw [hk]
              exact hanswer
            · rw [← hlook.t]
              exact hall k hlk (by omega)
          · exact (hlook.reads (by omega) (Int.le_refl _)).trans (hlook'.reads (Int.le_refl _) (by omega))

/-- The elements from `l` up to `i` are up to the pivot, and it is up to those from `j` up to `u`. -/
structure Zones (truth : V → V → Bool → Prop) (p : V) (l i j u : Int) (t : Int → V) : Prop where
  low : ∀ k, l ≤ k → k ≤ i → Upto truth (t k) p
  high : ∀ k, j ≤ k → k ≤ u → k ≠ u - 1 → Upto truth p (t k)
  pivot : t (u - 1) = p

section Zones

variable {p : V} {i j i' j' : Int} {s1 s2 : Sorting V σ}

/-- The scans meet, and the pivot belongs to where the way up has ended. -/
theorem Zones.meet (h : Zones truth p l i j u s.t) (hup : FoundUp truth p u i i' s s1)
    (hdown : FoundDown truth p l j j' s1 s2) (hmeet : j' < i') : Zones truth p l (i' - 1) i' u s2.t := by
  have ht : s2.t = s.t := by rw [hdown.looked.t, hup.looked.t]
  rw [ht]
  refine ⟨fun k hlk hki => ?_, fun k hik hku hne => ?_, h.pivot⟩
  · by_cases hk : k ≤ i
    · exact h.low k hlk hk
    · exact .inr (hup.passed k (by omega) (by omega))
  · rcases eq_or_ne k i' with heq | hki
    · rw [heq]
      exact .inl hup.stops
    · by_cases hk : j ≤ k
      · exact h.high k hk hku hne
      · have hpassed := hdown.passed k (by omega) (by omega)
        rw [hup.looked.t] at hpassed
        exact .inr hpassed

/-- The scans stop before they meet, and the elements there are exchanged. -/
theorem Zones.exchange (h : Zones truth p l i j u s.t) (hup : FoundUp truth p u i i' s s1)
    (hdown : FoundDown truth p l j j' s1 s2) (hij : i' ≤ j') (hju : j ≤ u - 1) :
    Zones truth p l i' j' u (swapped s2.t i' j') := by
  have ht : s2.t = s.t := by rw [hdown.looked.t, hup.looked.t]
  have hbelow := hdown.below
  have hstops := hdown.stops
  rw [hup.looked.t] at hstops
  rw [ht]
  refine ⟨fun k hlk hki => ?_, fun k hjk hku hne => ?_, ?_⟩
  · rcases eq_or_ne k i' with heq | hne
    · rw [heq, swapped_left]
      exact .inl hstops
    · rw [swapped_other _ hne (by omega)]
      by_cases hk : k ≤ i
      · exact h.low k hlk hk
      · exact .inr (hup.passed k (by omega) (by omega))
  · rcases eq_or_ne k j' with heq | hkj
    · rw [heq, swapped_right]
      exact .inl hup.stops
    · rw [swapped_other _ (by omega) hkj]
      by_cases hk : j ≤ k
      · exact h.high k hk hku hne
      · have hpassed := hdown.passed k (by omega) (by omega)
        rw [hup.looked.t] at hpassed
        exact .inr hpassed
  · rw [swapped_other _ (by omega) (by omega)]
    exact h.pivot

end Zones

theorem Looked.tame {a b : Int} {s' : Sorting V σ} (h : Looked (Reads a b) s s')
    (hin : (l ≤ a ∧ b ≤ u) ∨ Odd truth elem) : Moved (Tame truth elem l u) l u s s' := by
  have hlook : Looked (Tame truth elem l u) s s' := by
    refine ⟨h.t, fun e he => (h.log e he).imp_right fun hread => ?_⟩
    cases e with
    | read i =>
      have hread := hread
      rcases hin with hin | hodd
      · exact .inl ⟨by have := hread.1; omega, by have := hread.2; omega⟩
      · exact .inr hodd
    | write i => exact hread.elim
    | up u i answer => exact hread
  exact hlook.moved l u

/-- The partition has come to `r` as the place of the pivot `p`. -/
structure Parted (truth : V → V → Bool → Prop) (elem : V → Prop) (p : V) (l u r : Int)
    (s s' : Sorting V σ) : Prop where
  above : l < r
  le : r ≤ u + 1
  astray : r = u + 1 → Astray s'
  odd : u - 1 < r → Odd truth elem
  zones : Zones truth p l (r - 1) r u s'.t
  moved : Moved (Tame truth elem l u) l u s s'

/-- The error is raised after answers that go against each other. -/
structure Refused (truth : V → V → Bool → Prop) (elem : V → Prop) (l u : Int) (e : SortFault)
    (s s' : Sorting V σ) : Prop where
  invalid : e = .invalid
  odd : Odd truth elem
  moved : Moved (Tame truth elem l u) l u s s'

theorem partitionLoop_parts (hless : Answers less truth) (p : V) (n : Nat) (i j : Int) (s : Sorting V σ)
    (hz : Zones truth p l i j u s.t) (helem : ∀ k, l ≤ k → k ≤ u → elem (s.t k)) (hli : l ≤ i) (hij : i ≤ j)
    (hlj : l < j) (hju : j ≤ u - 1) (hiu : i < u - 1) (hn : (j - i).toNat < n) :
    EndsIn (partitionLoop less p l u n i j s) (fun r s' => Parted truth elem p l u r s s')
      fun e s' => Refused truth elem l u e s s' := by
  induction n generalizing i j s with
  | zero => omega
  | succ n ih =>
    have hp : elem p := by
      rw [← hz.pivot]
      exact helem (u - 1) (by omega) (by omega)
    refine ends_bind (ends_mono (scanUp_finds hless p _ i s (by omega) (by omega)) (fun _ _ h => h)
      fun e s1 h => ?_) fun up s1 h1 => ?_
    · have hall := h.2.1 (u - 1) (by omega) (by omega)
      rw [hz.pivot] at hall
      have hodd : Odd truth elem := ⟨p, p, hp, hp, .inr hall, hall⟩
      exact ⟨h.1, hodd, h.2.2.tame (.inr hodd)⟩
    obtain ⟨i', ai⟩ := up
    obtain ⟨hai, hup⟩ := h1
    have habove := hup.above
    have hpast : u - 1 < i' → Odd truth elem := fun h => by
      have hall := hup.passed (u - 1) (by omega) (by omega)
      rw [hz.pivot] at hall
      exact ⟨p, p, hp, hp, .inr hall, hall⟩
    have hmoved1 : Moved (Tame truth elem l u) l u s s1 := by
      refine hup.looked.tame ?_
      by_cases hle : i' ≤ u
      · exact .inl ⟨by omega, hle⟩
      · exact .inr (hpast (by omega))
    refine ends_bind (ends_mono (ends_and (scanDown_finds hless p _ j s1 (by omega) (by omega))
      (ends_imp fun hlast => keeps_scanDown p l _ j s1 (hup.astray hlast))) (fun _ _ h => h)
      fun e s2 h => ?_) fun down s2 h2 => ?_
    · have hall := h.1.2.1 l (by omega) hlj
      rw [hup.looked.t] at hall
      have hodd : Odd truth elem := ⟨_, p, helem l (by omega) (by omega), hp, hz.low l (by omega) hli, hall⟩
      exact ⟨h.1.1, hodd, hmoved1.trans (h.1.2.2.tame (.inr hodd))⟩
    obtain ⟨j', aj⟩ := down
    obtain ⟨⟨haj, hdown⟩, hastray⟩ := h2
    have hbelow := hdown.below
    have hmoved2 : Moved (Tame truth elem l u) l u s1 s2 := by
      refine hdown.looked.tame ?_
      by_cases hle : l ≤ j'
      · exact .inl ⟨hle, by omega⟩
      · have hall := hdown.passed l (by omega) hlj
        rw [hup.looked.t] at hall
        exact .inr ⟨_, p, helem l (by omega) (by omega), hp, hz.low l (by omega) hli, hall⟩
    have hmoved := hmoved1.trans hmoved2
    refine ends_ite (fun hmeet => ?_) fun hmeet => ?_
    · exact ends_pure ⟨by omega, hup.le, hastray, hpast, hz.meet hup hdown hmeet, hmoved⟩
    · have hmeet : i' ≤ j' := by omega
      refine ends_bind (set2_swaps (s := s2) ?_ ?_ ⟨by omega, by omega⟩ ⟨by omega, by omega⟩)
        fun _ s3 (h3 : _ ∧ Moved (Tame truth elem l u) l u s2 s3) => ?_
      · rw [haj, hdown.looked.t]
      · rw [hai, hdown.looked.t, hup.looked.t]
      have hz3 := hz.exchange hup hdown hmeet hju
      rw [← h3.1] at hz3
      have hmoved3 := hmoved.trans h3.2
      refine ends_mono (ih i' j' s3 hz3 (hmoved3.permuted.all helem) (by omega) hmeet (by omega) (by omega)
        (by omega) (by omega)) (fun r s' h => ?_) fun e s' h => ?_
      · exact ⟨h.above, h.le, h.astray, h.odd, h.zones, hmoved3.trans h.moved⟩
      · exact ⟨h.invalid, h.odd, hmoved3.trans h.moved⟩

/-- The element at `r` comes between those before it and those behind it. -/
structure Around (truth : V → V → Bool → Prop) (l r u : Int) (t : Int → V) : Prop where
  low : ∀ k, l ≤ k → k < r → Upto truth (t k) (t r)
  high : ∀ k, r < k → k ≤ u → Upto truth (t r) (t k)

/-- What a pass of `auxsort` leaves: a few elements in order, or the pivot at its place. -/
def Divided (truth : V → V → Bool → Prop) (elem : V → Prop) (l u : Int) (s s' : Sorting V σ) :
    Option Int → Prop
  | none => (∀ k, l ≤ k → k < u → Upto truth (s'.t k) (s'.t (k + 1))) ∧ Moved (Tame truth elem l u) l u s s'
  | some r => (Astray s' ∧ Odd truth elem) ∨
      ((l < r ∧ r ≤ u) ∧ (Odd truth elem ∨ Around truth l r u s'.t) ∧ Moved (Tame truth elem l u) l u s s')

theorem Zones.around {p : V} {r : Int} {t : Int → V} (h : Zones truth p l (r - 1) r u t) (hr : r ≤ u - 1) :
    Around truth l r u (swapped t (u - 1) r) := by
  have hpivot : swapped t (u - 1) r r = p := by rw [swapped_right, h.pivot]
  refine ⟨fun k hlk hkr => ?_, fun k hrk hku => ?_⟩
  · rw [hpivot, swapped_other _ (by omega) (by omega)]
    exact h.low k hlk (by omega)
  · rw [hpivot]
    rcases eq_or_ne k (u - 1) with heq | hne
    · rw [heq, swapped_left]
      exact h.high r (by omega) (by omega) (by omega)
    · rw [swapped_other _ hne (by omega)]
      exact h.high k (by omega) hku hne

theorem sortPass_divides (hless : Answers less truth) (hlu : l < u) (s : Sorting V σ)
    (helem : ∀ k, l ≤ k → k ≤ u → elem (s.t k)) :
    EndsIn (sortPass less l u s) (fun r s' => Divided truth elem l u s s' r)
      fun e s' => Refused truth elem l u e s s' := by
  refine ends_bind (sortEnds_upto hless hlu s) fun _ s1 (h1 : _ ∧ Moved (Tame truth elem l u) l u s s1) => ?_
  refine ends_ite (fun htwo => ends_pure ⟨fun k hlk hku => ?_, h1.2⟩) fun htwo => ?_
  · have hl : k = l := by omega
    have hu : k + 1 = u := by omega
    rw [hl, ← hl, hu, hl]
    exact h1.1
  obtain ⟨i, hi⟩ : ∃ i, i = (l + u) / 2 := ⟨_, rfl⟩
  rw [← hi]
  have hli : l < i := by omega
  refine ends_bind (sortMiddle_upto hless hli (by omega) s1 h1.1)
    fun _ s2 (h2 : _ ∧ Moved (Tame truth elem l u) l u s1 s2) => ?_
  have hmoved2 := h1.2.trans h2.2
  refine ends_ite (fun hthree => ends_pure ⟨fun k hlk hku => ?_, hmoved2⟩) fun hthree => ?_
  · rcases eq_or_ne k l with heq | hne
    · have hmid : k + 1 = i := by omega
      rw [hmid, heq]
      exact h2.1.1
    · have hmid : k = i := by omega
      have hu : k + 1 = u := by omega
      rw [hu, hmid]
      exact h2.1.2
  refine ends_bind (takePivot_swaps ⟨by omega, by omega⟩ hlu s2)
    fun p s3 (h3 : _ ∧ _ ∧ Moved (Tame truth elem l u) l u s2 s3) => ?_
  obtain ⟨hp, ht3, hmoved⟩ := h3
  have hmoved3 := hmoved2.trans hmoved
  have hz : Zones truth p l l (u - 1) u s3.t := by
    rw [ht3, hp]
    refine ⟨fun k hlk hkl => ?_, fun k hjk hku hne => ?_, swapped_right _ _ _⟩
    · have hk : k = l := by omega
      rw [hk, swapped_other _ (by omega) (by omega)]
      exact h2.1.1
    · have hk : k = u := by omega
      rw [hk, swapped_other _ (by omega) (by omega)]
      exact h2.1.2
  refine ends_bind (ends_mono (partitionLoop_parts hless p _ l (u - 1) s3 hz (hmoved3.permuted.all helem)
    (by omega) (by omega) (by omega) (by omega) (by omega) (by omega)) (fun _ _ h => h) fun e s4 h => ?_)
    fun r s4 h4 => ?_
  · exact ⟨h.invalid, h.odd, hmoved3.trans h.moved⟩
  have habove := h4.above
  by_cases hr : r ≤ u
  · refine ends_bind (placePivot_swaps ⟨by omega, hr⟩ hlu s4)
      fun _ s5 (h5 : _ ∧ Moved (Tame truth elem l u) l u s4 s5) =>
        ends_pure (.inr ⟨⟨habove, hr⟩, ?_, (hmoved3.trans h4.moved).trans h5.2⟩)
    by_cases hlast : r ≤ u - 1
    · rw [h5.1]
      exact .inr (h4.zones.around hlast)
    · exact .inl (h4.odd (by omega))
  · have hle := h4.le
    exact ends_bind (placePivot_astray r u (h4.astray (by omega))) fun _ s5 h5 =>
      ends_pure (.inl ⟨h5, h4.odd (by omega)⟩)

end Pass

end UgmeeLua.Tablib

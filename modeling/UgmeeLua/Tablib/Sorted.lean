import Mathlib.Data.Option.NAry
import UgmeeLua.Tablib.Partition
import UgmeeLua.Vm.Compare

namespace UgmeeLua.Tablib

open Stateful

variable {V σ : Type}

/-- An order of the elements that the answers bear out. -/
structure Ordered (truth : V → V → Bool → Prop) (elem : V → Prop) (le : V → V → Prop) : Prop where
  of_upto : ∀ a b, elem a → elem b → Upto truth a b → le a b
  trans : ∀ a b c, elem a → elem b → elem c → le a b → le b c → le a c

def SortedBy (le : V → V → Prop) (l u : Int) (t : Int → V) : Prop :=
  ∀ i j, l ≤ i → i < j → j ≤ u → le (t i) (t j)

section Join

variable {truth : V → V → Bool → Prop} {elem : V → Prop} {le : V → V → Prop} {l r u : Int} {t t' : Int → V}

/-- Elements in order of which each is up to the next one. -/
theorem SortedBy.of_next (hle : Ordered truth elem le) (helem : ∀ k, l ≤ k → k ≤ u → elem (t k))
    (hnext : ∀ k, l ≤ k → k < u → le (t k) (t (k + 1))) :
    SortedBy le l u t := by
  have hfar : ∀ d : Nat, ∀ i, l ≤ i → i + d + 1 ≤ u → le (t i) (t (i + d + 1)) := by
    intro d
    induction d with
    | zero =>
      intro i hli hiu
      have heq : i + (0 : Nat) + 1 = i + 1 := by omega
      rw [heq]
      exact hnext i hli (by omega)
    | succ d ih =>
      intro i hli hiu
      have heq : i + (d + 1 : Nat) + 1 = i + d + 1 + 1 := by omega
      rw [heq]
      exact hle.trans _ _ _ (helem i hli (by omega)) (helem _ (by omega) (by omega))
        (helem _ (by omega) (by omega)) (ih i hli (by omega)) (hnext (i + d + 1) (by omega) (by omega))
  intro i j hli hij hju
  have h := hfar (j - i - 1).toNat i hli (by omega)
  have heq : i + ((j - i - 1).toNat : Nat) + 1 = j := by omega
  rwa [heq] at h

/-- Two halves in order on both sides of an element that they are up to. -/
theorem SortedBy.join (hle : Ordered truth elem le) (helem : ∀ k, l ≤ k → k ≤ u → elem (t k))
    (hr : l < r ∧ r ≤ u) (hlow : ∀ k, l ≤ k → k < r → le (t k) (t r))
    (hhigh : ∀ k, r < k → k ≤ u → le (t r) (t k)) (hleft : SortedBy le l (r - 1) t)
    (hright : SortedBy le (r + 1) u t) : SortedBy le l u t := by
  intro i j hli hij hju
  rcases Int.lt_trichotomy j r with hj | hj | hj
  · exact hleft i j hli hij (by omega)
  · rw [hj]
    exact hlow i hli (by omega)
  · rcases Int.lt_trichotomy i r with hi | hi | hi
    · exact hle.trans _ _ _ (helem i hli (by omega)) (helem r (by omega) hr.2) (helem j (by omega) hju)
        (hlow i hli hi) (hhigh j hj hju)
    · rw [hi]
      exact hhigh j hj hju
    · exact hright i j (by omega) hij hju

theorem SortedBy.congr (h : SortedBy le l u t) (heq : ∀ k, l ≤ k → k ≤ u → t' k = t k) :
    SortedBy le l u t' := by
  intro i j hli hij hju
  rw [heq i hli (by omega), heq j (by omega) hju]
  exact h i j hli hij hju

end Join

section Runs

variable {less : Comparison V σ} {truth : V → V → Bool → Prop} {elem : V → Prop} {le : V → V → Prop}

/-- The range has been sorted, or the answers have gone against each other. -/
def Arranged (truth : V → V → Bool → Prop) (elem : V → Prop) (le : V → V → Prop) (l u : Int)
    (s s' : Sorting V σ) : Prop :=
  (Astray s' ∧ Odd truth elem) ∨
    (Moved (Tame truth elem l u) l u s s' ∧ (Odd truth elem ∨ SortedBy le l u s'.t))

def Broken (truth : V → V → Bool → Prop) (elem : V → Prop) (l u : Int) (e : SortFault)
    (s s' : Sorting V σ) : Prop :=
  (Astray s' ∧ Odd truth elem) ∨ Refused truth elem l u e s s'

theorem Tame.mono {l u l' u' : Int} (hl : l ≤ l') (hu : u' ≤ u) {e : Event} (h : Tame truth elem l' u' e) :
    Tame truth elem l u e := by
  cases e with
  | read i => exact h.imp_left fun h => ⟨by have := h.1; omega, by have := h.2; omega⟩
  | write i => exact ⟨by have := h.1; omega, by have := h.2; omega⟩
  | up u i answer => exact h

theorem Moved.widen {l u l' u' : Int} {s s' : Sorting V σ} (h : Moved (Tame truth elem l' u') l' u' s s')
    (hl : l ≤ l') (hu : u' ≤ u) : Moved (Tame truth elem l u) l u s s' :=
  h.mono hl hu fun _ => Tame.mono hl hu

/-- One range after the other. -/
theorem auxsort_both {n : Nat} {l u a b c d : Int} {s : Sorting V σ}
    (ih : ∀ l u (s : Sorting V σ), (∀ k, l ≤ k → k ≤ u → elem (s.t k)) → (u - l).toNat < n →
      EndsIn (auxsort less n l u s) (fun _ s' => Arranged truth elem le l u s s')
        fun e s' => Broken truth elem l u e s s')
    (helem : ∀ k, l ≤ k → k ≤ u → elem (s.t k)) (hab : l ≤ a ∧ b ≤ u) (hcd : l ≤ c ∧ d ≤ u)
    (hnab : (b - a).toNat < n) (hncd : (d - c).toNat < n) :
    EndsIn ((auxsort less n a b >>= fun _ => auxsort less n c d) s)
      (fun _ s' => (Astray s' ∧ Odd truth elem) ∨ ∃ s1,
        (Moved (Tame truth elem a b) a b s s1 ∧ (Odd truth elem ∨ SortedBy le a b s1.t)) ∧
        (Moved (Tame truth elem c d) c d s1 s' ∧ (Odd truth elem ∨ SortedBy le c d s'.t)))
      fun e s' => Broken truth elem l u e s s' := by
  have hfirst := ih a b s (fun k hak hkb => helem k (by omega) (by omega)) hnab
  refine ends_bind (ends_mono hfirst (fun _ _ h => h) fun e s1 h => h.imp_right fun h => ?_) fun _ s1 h1 => ?_
  · exact ⟨h.invalid, h.odd, h.moved.widen hab.1 hab.2⟩
  rcases h1 with ⟨hastray, hodd⟩ | ⟨hmoved, hsorted⟩
  · exact ends_mono (keeps_auxsort n c d s1 hastray) (fun _ _ h => .inl ⟨h, hodd⟩) fun _ _ h => .inl ⟨h, hodd⟩
  · have hmoved1 := hmoved.widen hab.1 hab.2
    have hsecond := ih c d s1 (fun k hck hkd => hmoved1.permuted.all helem k (by omega) (by omega)) hncd
    refine ends_mono hsecond (fun _ s2 h => h.imp_right fun h => ⟨s1, ⟨hmoved, hsorted⟩, h⟩)
      fun e s2 h => h.imp_right fun h => ?_
    exact ⟨h.invalid, h.odd, hmoved1.trans (h.moved.widen hcd.1 hcd.2)⟩

/-- The halves are put in order behind a pass, one before the other. -/
theorem Around.arranged {l r u : Int} {t t' : Int → V} (h : Around truth l r u t)
    (hle : Ordered truth elem le) (hr : l < r ∧ r ≤ u) (helem : ∀ k, l ≤ k → k ≤ u → elem (t k))
    (hmid : t' r = t r) (hlow : ∀ k, l ≤ k → k ≤ r - 1 → ∃ k', (l ≤ k' ∧ k' ≤ r - 1) ∧ t' k = t k')
    (hhigh : ∀ k, r + 1 ≤ k → k ≤ u → ∃ k', (r + 1 ≤ k' ∧ k' ≤ u) ∧ t' k = t k')
    (hleft : SortedBy le l (r - 1) t') (hright : SortedBy le (r + 1) u t') : SortedBy le l u t' := by
  have helem' : ∀ k, l ≤ k → k ≤ u → elem (t' k) := by
    intro k hlk hku
    rcases Int.lt_trichotomy k r with hk | hk | hk
    · obtain ⟨k', hin, heq⟩ := hlow k hlk (by omega)
      rw [heq]
      exact helem k' hin.1 (by omega)
    · rw [hk, hmid]
      exact helem r (by omega) hr.2
    · obtain ⟨k', hin, heq⟩ := hhigh k (by omega) hku
      rw [heq]
      exact helem k' (by omega) hin.2
  refine SortedBy.join hle helem' hr (fun k hlk hkr => ?_) (fun k hrk hku => ?_) hleft hright
  · obtain ⟨k', hin, heq⟩ := hlow k hlk (by omega)
    rw [heq, hmid]
    exact hle.of_upto _ _ (helem k' hin.1 (by omega)) (helem r (by omega) hr.2) (h.low k' hin.1 (by omega))
  · obtain ⟨k', hin, heq⟩ := hhigh k (by omega) hku
    rw [heq, hmid]
    exact hle.of_upto _ _ (helem r (by omega) hr.2) (helem k' (by omega) hin.2) (h.high k' (by omega) hin.2)

/-- The lower half first. -/
theorem Around.low_first {l r u : Int} {t t1 t' : Int → V} (h : Around truth l r u t)
    (hle : Ordered truth elem le) (hr : l < r ∧ r ≤ u) (helem : ∀ k, l ≤ k → k ≤ u → elem (t k))
    (h1 : Permuted l (r - 1) t t1) (h2 : Permuted (r + 1) u t1 t') (hleft : SortedBy le l (r - 1) t1)
    (hright : SortedBy le (r + 1) u t') : SortedBy le l u t' := by
  have hkept : ∀ k, k ≤ r → t' k = t1 k := fun k hk => h2.outside (.inl (by omega))
  have hkept1 : ∀ k, r ≤ k → t1 k = t k := fun k hk => h1.outside (.inr (by omega))
  refine h.arranged hle hr helem ?_ (fun k hlk hkr => ?_) (fun k hrk hku => ?_)
    (hleft.congr fun k hlk hkr => hkept k (by omega)) hright
  · rw [hkept r (Int.le_refl r), hkept1 r (Int.le_refl r)]
  · obtain ⟨k', hin, heq⟩ := h1.elem ⟨hlk, hkr⟩
    exact ⟨k', hin, by rw [hkept k (by omega), heq]⟩
  · obtain ⟨k', hin, heq⟩ := h2.elem ⟨hrk, hku⟩
    exact ⟨k', hin, by rw [heq, hkept1 k' (by omega)]⟩

/-- The upper half first. -/
theorem Around.high_first {l r u : Int} {t t1 t' : Int → V} (h : Around truth l r u t)
    (hle : Ordered truth elem le) (hr : l < r ∧ r ≤ u) (helem : ∀ k, l ≤ k → k ≤ u → elem (t k))
    (h1 : Permuted (r + 1) u t t1) (h2 : Permuted l (r - 1) t1 t') (hright : SortedBy le (r + 1) u t1)
    (hleft : SortedBy le l (r - 1) t') : SortedBy le l u t' := by
  have hkept : ∀ k, r ≤ k → t' k = t1 k := fun k hk => h2.outside (.inr (by omega))
  have hkept1 : ∀ k, k ≤ r → t1 k = t k := fun k hk => h1.outside (.inl (by omega))
  refine h.arranged hle hr helem ?_ (fun k hlk hkr => ?_) (fun k hrk hku => ?_) hleft
    (hright.congr fun k hrk hku => hkept k (by omega))
  · rw [hkept r (Int.le_refl r), hkept1 r (Int.le_refl r)]
  · obtain ⟨k', hin, heq⟩ := h2.elem ⟨hlk, hkr⟩
    exact ⟨k', hin, by rw [heq, hkept1 k' (by omega)]⟩
  · obtain ⟨k', hin, heq⟩ := h1.elem ⟨hrk, hku⟩
    exact ⟨k', hin, by rw [hkept k (by omega), heq]⟩

theorem arranged_both {l u a b c d : Int} {s s1 s3 : Sorting V σ} (hab : l ≤ a ∧ b ≤ u) (hcd : l ≤ c ∧ d ≤ u)
    {around : Prop} (hmoved : Moved (Tame truth elem l u) l u s s1) (haround : Odd truth elem ∨ around)
    (h : (Astray s3 ∧ Odd truth elem) ∨ ∃ s2,
      (Moved (Tame truth elem a b) a b s1 s2 ∧ (Odd truth elem ∨ SortedBy le a b s2.t)) ∧
      (Moved (Tame truth elem c d) c d s2 s3 ∧ (Odd truth elem ∨ SortedBy le c d s3.t)))
    (hjoin : ∀ t2, around → Permuted a b s1.t t2 → Permuted c d t2 s3.t → SortedBy le a b t2 →
      SortedBy le c d s3.t → SortedBy le l u s3.t) : Arranged truth elem le l u s s3 := by
  rcases h with hodd | ⟨s2, ⟨hmoved2, hsorted2⟩, hmoved3, hsorted3⟩
  · exact .inl hodd
  · refine .inr ⟨(hmoved.trans (hmoved2.widen hab.1 hab.2)).trans (hmoved3.widen hcd.1 hcd.2), ?_⟩
    rcases haround with hodd | haround
    · exact .inl hodd
    · rcases hsorted2 with hodd | hsorted2
      · exact .inl hodd
      · exact hsorted3.imp_right fun hsorted3 =>
          hjoin s2.t haround hmoved2.permuted hmoved3.permuted hsorted2 hsorted3

theorem Broken.after {l u : Int} {e : SortFault} {s s1 s' : Sorting V σ}
    (hmoved : Moved (Tame truth elem l u) l u s s1) (h : Broken truth elem l u e s1 s') :
    Broken truth elem l u e s s' :=
  h.imp_right fun h => ⟨h.invalid, h.odd, hmoved.trans h.moved⟩

theorem auxsort_arranges (hless : Answers less truth) (hle : Ordered truth elem le) (n : Nat) (l u : Int)
    (s : Sorting V σ) (helem : ∀ k, l ≤ k → k ≤ u → elem (s.t k)) (hn : (u - l).toNat < n) :
    EndsIn (auxsort less n l u s) (fun _ s' => Arranged truth elem le l u s s')
      fun e s' => Broken truth elem l u e s s' := by
  induction n generalizing l u s with
  | zero => omega
  | succ n ih =>
    refine ends_ite (fun hlu => ?_) fun hlu => ends_pure (.inr ⟨Moved.refl _ l u s, .inr ?_⟩)
    · refine ends_bind (ends_mono (sortPass_divides hless hlu s helem) (fun _ _ h => h)
        fun e s1 h => .inr h) fun place s1 h1 => ?_
      cases place with
      | none =>
        obtain ⟨hnext, hmoved⟩ := h1
        have helem1 := hmoved.permuted.all helem
        refine ends_pure (.inr ⟨hmoved, .inr (SortedBy.of_next hle helem1 fun k hlk hku => ?_)⟩)
        exact hle.of_upto _ _ (helem1 k hlk (by omega)) (helem1 (k + 1) (by omega) (by omega))
          (hnext k hlk hku)
      | some r =>
        rcases h1 with ⟨hastray, hodd⟩ | ⟨hr, haround, hmoved⟩
        · refine ends_mono (keeps_ite (keeps_bind (keeps_auxsort n _ _) fun _ => keeps_auxsort n _ _)
            (keeps_bind (keeps_auxsort n _ _) fun _ => keeps_auxsort n _ _) s1 hastray)
            (fun _ _ h => .inl ⟨h, hodd⟩) fun _ _ h => .inl ⟨h, hodd⟩
        · have helem1 := hmoved.permuted.all helem
          have hupper : r - 1 + 2 = r + 1 := by omega
          have hlower : r + 1 - 2 = r - 1 := by omega
          have hlow : l ≤ l ∧ r - 1 ≤ u := by omega
          have hhigh : l ≤ r + 1 ∧ u ≤ u := by omega
          refine ends_ite (fun _ => ?_) fun _ => ?_
          · rw [hupper]
            refine ends_mono (auxsort_both ih helem1 hlow hhigh (by omega) (by omega))
              (fun _ s3 h3 => ?_) fun _ _ h => h.after hmoved
            exact arranged_both hlow hhigh hmoved haround h3 fun t2 h => h.low_first hle hr helem1
          · rw [hlower]
            refine ends_mono (auxsort_both ih helem1 hhigh hlow (by omega) (by omega))
              (fun _ s3 h3 => ?_) fun _ _ h => h.after hmoved
            exact arranged_both hhigh hlow hmoved haround h3 fun t2 h => h.high_first hle hr helem1
    · intro i j hli hij hju
      omega

end Runs

/-! ## Any comparison function -/

/-- Only `t[1..n]` is written, and it keeps its elements. -/
structure Kept (n : Nat) (f : Int → V) (s : Sorting V σ) : Prop where
  written : ∀ i : Int, .write i ∈ s.log → 1 ≤ i ∧ i ≤ n
  permuted : Permuted 1 n f s.t

section Runs

variable {less : Comparison V σ} {truth : V → V → Bool → Prop} {elem : V → Prop} {le : V → V → Prop}
  {n : Nat} {f : Int → V} {o : σ}

theorem Moved.kept {s : Sorting V σ} (h : Moved (Tame truth elem 1 n) 1 n ⟨f, [], o⟩ s) : Kept n f s :=
  ⟨fun i hi => (h.log (.write i) hi).resolve_left (by simp), h.permuted⟩

theorem sort_arranges (hless : Answers less truth) (hle : Ordered truth elem le) {fuel : Nat}
    (helem : ∀ k, 1 ≤ k → k ≤ (n : Int) → elem (f k)) (hfuel : n < fuel) :
    ((sort less n f o fuel).1 = none ∧ Arranged truth elem le 1 n ⟨f, [], o⟩ (sort less n f o fuel).2) ∨
      ∃ e, (sort less n f o fuel).1 = some e ∧
        Broken truth elem 1 n e ⟨f, [], o⟩ (sort less n f o fuel).2 := by
  have h := auxsort_arranges hless hle fuel 1 n ⟨f, [], o⟩ helem (by omega)
  unfold sort
  cases hr : auxsort less fuel 1 n ⟨f, [], o⟩ with
  | ok a s =>
    rw [hr] at h
    exact .inl ⟨rfl, h⟩
  | error e s =>
    rw [hr] at h
    exact .inr ⟨e, rfl, h⟩

end Runs

/-- Finds every element less than every other one and than itself. -/
def bothGiven : Comparison (Option Nat) Unit := fun a b t o => (a.isSome && b.isSome, t, o)

/-- The elements `1..n`, with nil behind them. -/
def firstNumbers (n : Nat) : Int → Option Nat := fun i => if 1 ≤ i ∧ i ≤ n then some i.toNat else none

/-- The elements of `t[1..n]`. -/
def Element (f : Int → V) (n : Nat) (v : V) : Prop := ∃ k : Int, 1 ≤ k ∧ k ≤ n ∧ f k = v

/-- A comparison function that compares the elements by `lt` and leaves the table alone. -/
structure Compares (less : Comparison V σ) (lt : V → V → Bool) (elem : V → Prop) : Prop where
  answer : ∀ a b, elem a → elem b → ∀ t o, (less a b t o).1 = lt a b
  table : ∀ a b t o, (less a b t o).2.1 = t

/-- A strict order on the elements. -/
structure StrictOrder (elem : V → Prop) (lt : V → V → Bool) : Prop where
  irrefl : ∀ a, elem a → lt a a = false
  trans : ∀ a b c, elem a → elem b → elem c → lt a b = true → lt b c = true → lt a c = true

/-- Elements of which none is less than the other are alike. -/
def Alike (lt : V → V → Bool) (a b : V) : Prop := lt a b = false ∧ lt b a = false

/-- A strict weak order on the elements. -/
structure StrictWeakOrder (elem : V → Prop) (lt : V → V → Bool) : Prop extends StrictOrder elem lt where
  alike_trans : ∀ a b c, elem a → elem b → elem c → Alike lt a b → Alike lt b c → Alike lt a c

section Orders

variable {less : Comparison V σ} {lt : V → V → Bool} {elem : V → Prop} {a b c : V}

theorem StrictOrder.asymm (h : StrictOrder elem lt) (ha : elem a) (hb : elem b) (hab : lt a b = true) :
    lt b a = false := by
  cases hba : lt b a with
  | false => rfl
  | true =>
    have haa := h.trans a b a ha hb ha hab hba
    rw [h.irrefl a ha] at haa
    cases haa

theorem StrictWeakOrder.not_lt_trans (h : StrictWeakOrder elem lt) (ha : elem a) (hb : elem b) (hc : elem c)
    (hba : lt b a = false) (hcb : lt c b = false) : lt c a = false := by
  cases hca : lt c a with
  | false => rfl
  | true =>
    have hab : lt a b = false := by
      by_contra hlt
      rw [h.trans c a b hc ha hb hca (eq_true_of_ne_false hlt)] at hcb
      cases hcb
    have hbc : lt b c = false := by
      by_contra hlt
      rw [h.trans b c a hb hc ha (eq_true_of_ne_false hlt) hca] at hba
      cases hba
    have halike := h.alike_trans a b c ha hb hc ⟨hab, hba⟩ ⟨hbc, hcb⟩
    exact absurd hca (by simp [halike.2])

/-- The answers of a comparison function on elements. -/
def Truth (elem : V → Prop) (lt : V → V → Bool) (a b : V) (r : Bool) : Prop := elem a → elem b → r = lt a b

theorem not_lt_of_upto (h : StrictOrder elem lt) (ha : elem a) (hb : elem b)
    (hab : Upto (Truth elem lt) a b) : lt b a = false := by
  rcases hab with hfalse | htrue
  · exact (hfalse hb ha).symm
  · exact h.asymm ha hb (htrue ha hb).symm

theorem not_odd (h : StrictOrder elem lt) : ¬ Odd (Truth elem lt) elem := by
  rintro ⟨a, b, ha, hb, hab, hba⟩
  have hlt := hba hb ha
  rw [not_lt_of_upto h ha hb hab] at hlt
  cases hlt

theorem sort_sorts {n : Nat} {f : Int → V} {o : σ} {fuel : Nat} {le : V → V → Prop}
    (hfuel : n < fuel) (hless : Compares less lt (Element f n)) (hlt : StrictOrder (Element f n) lt)
    (hle : Ordered (Truth (Element f n) lt) (Element f n) le) :
    (sort less n f o fuel).1 = none ∧
      Moved (Tame (Truth (Element f n) lt) (Element f n) 1 n) 1 n ⟨f, [], o⟩ (sort less n f o fuel).2 ∧
      SortedBy le 1 n (sort less n f o fuel).2.t := by
  have hanswers : Answers less (Truth (Element f n) lt) :=
    fun a b t o => ⟨hless.table a b t o, fun ha hb => hless.answer a b ha hb t o⟩
  have hodd := not_odd hlt
  rcases sort_arranges (o := o) hanswers hle (fun k hk1 hkn => ⟨k, hk1, hkn, rfl⟩) hfuel with
    ⟨hend, h⟩ | ⟨e, -, h⟩
  · rcases h with ⟨-, h⟩ | ⟨hmoved, hsorted⟩
    · exact absurd h hodd
    · exact ⟨hend, hmoved, hsorted.resolve_left hodd⟩
  · rcases h with ⟨-, h⟩ | hrefused
    · exact absurd h hodd
    · exact absurd hrefused.odd hodd

end Orders

section Numbers

variable {N : Type} [LuaNumber N]

/-- `lua_lessthan`, where it comes to a value. -/
def lessthan (h : Heap N) : Comparison (TValue N) σ := fun a b t o =>
  (match luaVLessthan h a b with
    | .value r => r
    | _ => false, t, o)

/-- The order of numbers. -/
def numberLt : TValue N → TValue N → Bool
  | .number a, .number b => luaiNumlt a b
  | _, _ => false

theorem lessthan_compares (h : Heap N) {elem : TValue N → Prop} (helem : ∀ v, elem v → ∃ a, v = .number a) :
    Compares (lessthan h : Comparison (TValue N) σ) numberLt elem := by
  refine ⟨fun a b ha hb t o => ?_, fun _ _ _ _ => rfl⟩
  obtain ⟨x, rfl⟩ := helem a ha
  obtain ⟨y, rfl⟩ := helem b hb
  rfl

end Numbers

/-- Whole numbers and a NaN. -/
instance : LuaNumber (Option Int) where
  zero := some 0
  add := Option.map₂ (· + ·)
  sub := Option.map₂ (· - ·)
  mul := Option.map₂ (· * ·)
  div := Option.map₂ Int.fdiv
  neg := Option.map Neg.neg
  floor := id
  pow := Option.map₂ fun a b => a ^ b.toNat
  eq a b := (Option.map₂ (fun x y => decide (x = y)) a b).getD false
  lt a b := (Option.map₂ (fun x y => decide (x < y)) a b).getD false
  le a b := (Option.map₂ (fun x y => decide (x ≤ y)) a b).getD false
  toInt a := BitVec.ofInt 32 (a.getD 0)
  ofInteger a := some a.toInt
  str2d s := (LuaNumber.str2d s : Option Int).map some
  eq_zero := by decide

def numbers (l : List (Option Int)) : Int → TValue (Option Int) := fun i =>
  if 1 ≤ i then (l[i.toNat - 1]?.map .number).getD .nil else .nil

theorem numberLt_int (elem : TValue Int → Prop) (helem : ∀ v, elem v → ∃ a, v = .number a) :
    StrictWeakOrder elem numberLt := by
  refine ⟨⟨fun a ha => ?_, fun a b c ha hb hc => ?_⟩, fun a b c ha hb hc => ?_⟩
  · obtain ⟨x, rfl⟩ := helem a ha
    simp [numberLt, luaiNumlt, LuaNumber.lt]
  · obtain ⟨x, rfl⟩ := helem a ha
    obtain ⟨y, rfl⟩ := helem b hb
    obtain ⟨z, rfl⟩ := helem c hc
    simp only [numberLt, luaiNumlt, LuaNumber.lt, decide_eq_true_eq]
    omega
  · obtain ⟨x, rfl⟩ := helem a ha
    obtain ⟨y, rfl⟩ := helem b hb
    obtain ⟨z, rfl⟩ := helem c hc
    simp only [Alike, numberLt, luaiNumlt, LuaNumber.lt, decide_eq_false_iff_not]
    omega

/-- Numbers that go down. -/
def downFrom (n : Nat) : Int → TValue Int := fun i => .number (n - i)

theorem downFrom_element (n : Nat) (v : TValue Int) (hv : Element (downFrom n) n v) : ∃ a, v = .number a := by
  obtain ⟨k, -, -, hk⟩ := hv
  exact ⟨_, hk.symm⟩

end UgmeeLua.Tablib

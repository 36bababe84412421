import Mathlib.Data.List.Basic

namespace UgmeeLua.Precedence

/-- Binding limits of a set of operators: an operator `o` goes into the operand being read under
the limit `n` when `n < left o`, and its own right operand is read under `right o`. The limit 0
admits every operator. -/
structure Table (B U : Type) where
  left : B → Nat
  right : B → Nat
  unary : U → Nat
  left_pos : ∀ o, 0 < left o

/-- Grouped expressions; parentheses are kept as nodes so that a tree determines its text. -/
inductive Tree (B U A : Type) where
  | operand (a : A)
  | paren (e : Tree B U A)
  | unop (u : U) (e : Tree B U A)
  | binop (o : B) (l r : Tree B U A)
  deriving DecidableEq, Repr

/-- Symbols of an expression before any grouping. -/
inductive Sym (τ A : Type) where
  | operand (a : A)
  | lparen
  | rparen
  | op (t : τ)
  deriving DecidableEq, Repr

/-- How operator tokens are spelled; one token may be both a unary and a binary operator. -/
structure Lexis (τ B U : Type) where
  unOf : τ → Option U
  binOf : τ → Option B
  unTok : U → τ
  binTok : B → τ
  unOf_eq : ∀ t u, unOf t = some u ↔ t = unTok u
  binOf_eq : ∀ t o, binOf t = some o ↔ t = binTok o

variable {τ B U A : Type}

namespace Tree

def syms (L : Lexis τ B U) : Tree B U A → List (Sym τ A)
  | operand a => [.operand a]
  | paren e => .lparen :: (e.syms L ++ [.rparen])
  | unop u e => .op (L.unTok u) :: e.syms L
  | binop o l r => l.syms L ++ .op (L.binTok o) :: r.syms L

/-- Operators of the left edge: those whose left operand starts where the tree starts. -/
def leftEdge : Tree B U A → List B
  | binop o l _ => o :: l.leftEdge
  | _ => []

/-- Operators of the right edge, unary ones included: their operand ends where the tree ends. -/
def rightEdge : Tree B U A → List (U ⊕ B)
  | binop o _ r => .inr o :: r.rightEdge
  | unop u e => .inl u :: e.rightEdge
  | _ => []

/-- Pairs of operators that compete for the operand between them: the one whose right operand is
being read, and the one that arrives. -/
def meets : Tree B U A → List ((U ⊕ B) × B)
  | operand _ => []
  | paren e => e.meets
  | unop u e => e.meets ++ e.leftEdge.map (fun q => (.inl u, q))
  | binop o l r => l.meets ++ r.meets ++ l.rightEdge.map (fun p => (p, o)) ++
      r.leftEdge.map (fun q => (.inr o, q))

/-- Length of the left spine: one for the head and one for each operator met on it. -/
def spine : Tree B U A → Nat
  | binop _ l _ => l.spine + 1
  | _ => 1

theorem spine_le_length (L : Lexis τ B U) (e : Tree B U A) : e.spine ≤ (e.syms L).length := by
  induction e with
  | binop o l r ihl ihr =>
    simp only [spine, syms, List.length_append, List.length_cons]
    omega
  | operand a => simp [spine, syms]
  | paren e ih => simp [spine, syms]
  | unop u e ih => simp [spine, syms]

end Tree

namespace Table

/-- Limit under which the operand after an operator is read. -/
def after (T : Table B U) : U ⊕ B → Nat
  | .inl u => T.unary u
  | .inr o => T.right o

/-- The operator `o`, met while the operand of `p` is being read, goes into that operand. -/
def Takes (T : Table B U) (p : U ⊕ B) (o : B) : Prop := T.after p < T.left o

instance (T : Table B U) (p : U ⊕ B) (o : B) : Decidable (T.Takes p o) :=
  inferInstanceAs (Decidable (_ < _))

/-- A tree is grouped as the table says: no operator on a left operand's right edge takes the
node's operator, and every operator on a right operand's left edge is taken. -/
def Conforms (T : Table B U) : Tree B U A → Prop
  | .operand _ => True
  | .paren e => T.Conforms e
  | .unop u e => T.Conforms e ∧ ∀ q ∈ e.leftEdge, T.Takes (.inl u) q
  | .binop o l r => T.Conforms l ∧ T.Conforms r ∧
      (∀ p ∈ l.rightEdge, ¬ T.Takes p o) ∧ ∀ q ∈ r.leftEdge, T.Takes (.inr o) q

end Table

/-- The next binary operator of a text, if its first symbol is one. -/
def nextBin (L : Lexis τ B U) : List (Sym τ A) → Option B
  | .op t :: _ => L.binOf t
  | _ => none

/-- The text does not continue an operand read under `n`. -/
def Stops (L : Lexis τ B U) (T : Table B U) (n : Nat) (rest : List (Sym τ A)) : Prop :=
  ∀ o ∈ nextBin L rest, ¬ n < T.left o

mutual
/-- Precedence climbing: one head under a limit, then every operator that the limit admits. -/
def climb (L : Lexis τ B U) (T : Table B U) :
    Nat → Nat → List (Sym τ A) → Option (Tree B U A × List (Sym τ A))
  | 0, _, _ => none
  | n + 1, limit, .operand a :: ts => climbMore L T n limit (.operand a) ts
  | n + 1, limit, .lparen :: ts =>
    match climb L T n 0 ts with
    | some (e, .rparen :: ts') => climbMore L T n limit (.paren e) ts'
    | _ => none
  | n + 1, limit, .op t :: ts =>
    match L.unOf t with
    | some u =>
      match climb L T n (T.unary u) ts with
      | some (e, ts') => climbMore L T n limit (.unop u e) ts'
      | none => none
    | none => none
  | _ + 1, _, _ => none
def climbMore (L : Lexis τ B U) (T : Table B U) :
    Nat → Nat → Tree B U A → List (Sym τ A) → Option (Tree B U A × List (Sym τ A))
  | 0, _, _, _ => none
  | n + 1, limit, v, ts =>
    match nextBin L ts with
    | some o =>
      if limit < T.left o then
        match climb L T n (T.right o) ts.tail with
        | some (e, ts') => climbMore L T n limit (.binop o v e) ts'
        | none => none
      else some (v, ts)
    | none => some (v, ts)
end

section Basic

variable (L : Lexis τ B U) (T : Table B U)

theorem unOf_unTok (u : U) : L.unOf (L.unTok u) = some u := (L.unOf_eq _ _).mpr rfl

theorem binOf_binTok (o : B) : L.binOf (L.binTok o) = some o := (L.binOf_eq _ _).mpr rfl

theorem nextBin_binTok (o : B) (ts : List (Sym τ A)) :
    nextBin L (.op (L.binTok o) :: ts) = some o := binOf_binTok L o

theorem eq_cons_of_nextBin {ts : List (Sym τ A)} {o : B} (h : nextBin L ts = some o) :
    ts = .op (L.binTok o) :: ts.tail := by
  rcases ts with _ | ⟨_ | _ | _ | t, ts'⟩
  · simp [nextBin] at h
  · simp [nextBin] at h
  · simp [nextBin] at h
  · simp [nextBin] at h
  · rw [(L.binOf_eq t o).mp h]; rfl

theorem climbMore_stops (n limit : Nat) (v : Tree B U A) (ts : List (Sym τ A))
    (h : Stops L T limit ts) : climbMore L T (n + 1) limit v ts = some (v, ts) := by
  rw [climbMore]
  cases hb : nextBin L ts with
  | none => rfl
  | some o => simp only; rw [if_neg (h o hb)]

end Basic

/-- More fuel changes no answer. -/
theorem climb_succ (L : Lexis τ B U) (T : Table B U) (n : Nat) :
    (∀ limit (ts : List (Sym τ A)) r, climb L T n limit ts = some r →
      climb L T (n + 1) limit ts = some r) ∧
    (∀ limit v (ts : List (Sym τ A)) r, climbMore L T n limit v ts = some r →
      climbMore L T (n + 1) limit v ts = some r) := by
  induction n with
  | zero => constructor <;> intros <;> simp_all [climb, climbMore]
  | succ n ih =>
    obtain ⟨ihc, ihm⟩ := ih
    constructor
    · intro limit ts r h
      rcases ts with _ | ⟨a | _ | _ | t, ts⟩
      · simp [climb] at h
      · exact ihm limit (.operand a) ts r h
      · rw [climb] at h ⊢
        split at h
        · next v ts' hv =>
          rw [ihc 0 ts _ hv]
          exact ihm limit (.paren v) ts' r h
        · cases h
      · simp [climb] at h
      · rw [climb] at h ⊢
        split at h
        · next u hu =>
          split at h
          · next v ts' hv =>
            rw [ihc _ ts _ hv]
            exact ihm limit (.unop u v) ts' r h
          · cases h
        · cases h
    · intro limit v ts r h
      rw [climbMore] at h ⊢
      split at h
      · next o ho =>
        split_ifs at h ⊢ with hlim
        · split at h
          · next w ts' hw =>
            rw [ihc _ _ _ hw]
            exact ihm limit (.binop o v w) ts' r h
          · cases h
        · exact h
      · exact h

/-- Reading back the text of a conforming tree arrives at the tree, with the rest of the text
unread; `n` bounds the number of symbols. -/
theorem climb_syms (L : Lexis τ B U) (T : Table B U) (e : Tree B U A) (n limit : Nat)
    (rest : List (Sym τ A)) (hc : T.Conforms e) (hn : (e.syms L).length ≤ n)
    (hl : ∀ o ∈ e.leftEdge, limit < T.left o)
    (hr : ∀ p ∈ e.rightEdge, Stops L T (T.after p) rest) :
    climb L T (n + 1) limit (e.syms L ++ rest) = climbMore L T (n + 1 - e.spine) limit e rest := by
  induction e generalizing n limit rest with
  | operand a => rfl
  | paren e ih =>
    obtain ⟨m, rfl⟩ : ∃ m, n = m + 1 := ⟨n - 1, by simp [Tree.syms] at hn; omega⟩
    have hm : (e.syms L).length + 1 ≤ m := by simp [Tree.syms] at hn; omega
    have hs := e.spine_le_length L
    have stop (k : Nat) : Stops L T k (.rparen :: rest : List (Sym τ A)) :=
      fun o ho => by simp [nextBin] at ho
    have inner : climb L T (m + 1) 0 (e.syms L ++ .rparen :: rest) =
        some (e, .rparen :: rest) := by
      rw [ih m 0 _ hc (by omega) (fun o _ => T.left_pos o) (fun p _ => stop _),
        show m + 1 - e.spine = (m - e.spine) + 1 by omega]
      exact climbMore_stops L T _ _ _ _ (stop 0)
    simp only [Tree.syms, List.cons_append, List.append_assoc, List.nil_append, climb, inner,
      Tree.spine]
    rfl
  | unop u e ih =>
    obtain ⟨m, rfl⟩ : ∃ m, n = m + 1 := ⟨n - 1, by simp [Tree.syms] at hn; omega⟩
    have hm : (e.syms L).length ≤ m := by simp [Tree.syms] at hn; omega
    have hs := e.spine_le_length L
    have stop : Stops L T (T.unary u) rest := hr (.inl u) (by simp [Tree.rightEdge])
    have inner : climb L T (m + 1) (T.unary u) (e.syms L ++ rest) = some (e, rest) := by
      rw [ih m (T.unary u) rest hc.1 hm hc.2 (fun p hp => hr p (by simp [Tree.rightEdge, hp])),
        show m + 1 - e.spine = (m - e.spine) + 1 by omega]
      exact climbMore_stops L T _ _ _ _ stop
    simp only [Tree.syms, List.cons_append, climb, unOf_unTok, inner, Tree.spine]
    rfl
  | binop o l r ihl ihr =>
    obtain ⟨hcl, hcr, hedge, htake⟩ := hc
    simp only [Tree.syms, List.length_append, List.length_cons] at hn
    have hsl := l.spine_le_length L
    have hsr := r.spine_le_length L
    have stop : Stops L T (T.right o) rest := hr (.inr o) (by simp [Tree.rightEdge])
    have left : climb L T (n + 1) limit (l.syms L ++ .op (L.binTok o) :: (r.syms L ++ rest)) =
        climbMore L T (n + 1 - l.spine) limit l (.op (L.binTok o) :: (r.syms L ++ rest)) := by
      apply ihl n limit _ hcl (by omega) (fun q hq => hl q (by simp [Tree.leftEdge, hq]))
      intro p hp q hq
      rw [nextBin_binTok] at hq
      cases hq
      exact hedge p hp
    have right (m : Nat) (hm : (r.syms L).length ≤ m) :
        climb L T (m + 1) (T.right o) (r.syms L ++ rest) = some (r, rest) := by
      rw [ihr m (T.right o) rest hcr hm htake (fun p hp => hr p (by simp [Tree.rightEdge, hp])),
        show m + 1 - r.spine = (m - r.spine) + 1 by omega]
      exact climbMore_stops L T _ _ _ _ stop
    obtain ⟨m, hm⟩ : ∃ m, n + 1 - l.spine = m + 2 := ⟨n - 1 - l.spine, by omega⟩
    have takes : limit < T.left o := hl o (by simp [Tree.leftEdge])
    simp only [Tree.syms, List.append_assoc, List.cons_append, Tree.spine]
    rw [left, hm, show n + 1 - (l.spine + 1) = m + 1 by omega, climbMore]
    simp only [nextBin_binTok, if_pos takes, List.tail_cons, right m (by omega)]

/-- A conforming tree is recovered from its own text. -/
theorem climb_of_conforms (L : Lexis τ B U) (T : Table B U) (e : Tree B U A) (n : Nat)
    (hc : T.Conforms e) (hn : (e.syms L).length ≤ n) :
    climb L T (n + 1) 0 (e.syms L) = some (e, []) := by
  have hs := e.spine_le_length L
  have stop (k : Nat) : Stops L T k ([] : List (Sym τ A)) := fun o ho => by simp [nextBin] at ho
  have h := climb_syms L T e n 0 [] hc hn (fun o _ => T.left_pos o) (fun p _ => stop _)
  rw [List.append_nil] at h
  rw [h, show n + 1 - e.spine = (n - e.spine) + 1 by omega]
  exact climbMore_stops L T _ _ _ _ (stop 0)

/-- One text has at most one conforming tree. -/
theorem conforms_unique (L : Lexis τ B U) (T : Table B U) (e e' : Tree B U A)
    (hc : T.Conforms e) (hc' : T.Conforms e') (h : e.syms L = e'.syms L) : e = e' := by
  have h1 := climb_of_conforms L T e _ hc (Nat.le_refl _)
  have h2 := climb_of_conforms L T e' (e.syms L).length hc' (h ▸ Nat.le_refl _)
  rw [← h] at h2
  exact (Prod.mk.inj (Option.some.inj (h1.symm.trans h2))).1

/-- A tree grouped as one table says is grouped as another one says exactly when the two tables
decide alike for every pair of operators that meets in it. -/
theorem conforms_iff_meets (T T' : Table B U) (e : Tree B U A) (h : T.Conforms e) :
    T'.Conforms e ↔ ∀ m ∈ e.meets, (T'.Takes m.1 m.2 ↔ T.Takes m.1 m.2) := by
  induction e with
  | operand a => simp [Table.Conforms, Tree.meets]
  | paren e ih => exact ih h
  | unop u e ih =>
    obtain ⟨he, hq⟩ := h
    have edge : (∀ q ∈ e.leftEdge, T'.Takes (.inl u) q) ↔
        ∀ q ∈ e.leftEdge, (T'.Takes (.inl u) q ↔ T.Takes (.inl u) q) := by
      apply forall₂_congr
      intro q hm
      simp [hq q hm]
    simp only [Table.Conforms, Tree.meets, List.mem_append, List.mem_map, or_imp, forall_and,
      forall_exists_index, and_imp, forall_apply_eq_imp_iff₂]
    rw [ih he, edge]
  | binop o l r ihl ihr =>
    obtain ⟨hl, hr, hp, hq⟩ := h
    have edgeL : (∀ p ∈ l.rightEdge, ¬ T'.Takes p o) ↔
        ∀ p ∈ l.rightEdge, (T'.Takes p o ↔ T.Takes p o) := by
      apply forall₂_congr
      intro p hm
      simp [hp p hm]
    have edgeR : (∀ q ∈ r.leftEdge, T'.Takes (.inr o) q) ↔
        ∀ q ∈ r.leftEdge, (T'.Takes (.inr o) q ↔ T.Takes (.inr o) q) := by
      apply forall₂_congr
      intro q hm
      simp [hq q hm]
    simp only [Table.Conforms, Tree.meets, List.mem_append, List.mem_map, or_imp, forall_and,
      forall_exists_index, and_imp, forall_apply_eq_imp_iff₂]
    rw [ihl hl, ihr hr, edgeL, edgeR]
    simp only [and_assoc]

/-- What `climb` returns: a conforming tree and the text after it, at a point where the limit and
every operator of the right edge stop. -/
structure Parsed (L : Lexis τ B U) (T : Table B U) (limit : Nat) (ts : List (Sym τ A))
    (e : Tree B U A) (rest : List (Sym τ A)) : Prop where
  text : ts = e.syms L ++ rest
  conforms : T.Conforms e
  left : ∀ o ∈ e.leftEdge, limit < T.left o
  right : ∀ p ∈ e.rightEdge, Stops L T (T.after p) rest
  stop : Stops L T limit rest

theorem climb_parsed (L : Lexis τ B U) (T : Table B U) (n : Nat) :
    (∀ limit (ts : List (Sym τ A)) e rest, climb L T n limit ts = some (e, rest) →
      Parsed L T limit ts e rest) ∧
    (∀ limit v (ts : List (Sym τ A)) e rest, climbMore L T n limit v ts = some (e, rest) →
      T.Conforms v → (∀ o ∈ v.leftEdge, limit < T.left o) →
      (∀ p ∈ v.rightEdge, Stops L T (T.after p) ts) →
      Parsed L T limit (v.syms L ++ ts) e rest) := by
  induction n with
  | zero => constructor <;> intros <;> simp_all [climb, climbMore]
  | succ n ih =>
    obtain ⟨ihc, ihm⟩ := ih
    constructor
    · intro limit ts e rest h
      rcases ts with _ | ⟨a | _ | _ | t, ts⟩
      · simp [climb] at h
      · exact ihm limit (.operand a) ts e rest h trivial (by simp [Tree.leftEdge])
          (by simp [Tree.rightEdge])
      · rw [climb] at h
        split at h
        · next v ts' hv =>
          have hp := ihc 0 ts v _ hv
          have hm := ihm limit (.paren v) ts' e rest h hp.conforms (by simp [Tree.leftEdge])
            (by simp [Tree.rightEdge])
          simpa [Tree.syms, hp.text] using hm
        · cases h
      · simp [climb] at h
      · rw [climb] at h
        split at h
        · next u hu =>
          split at h
          · next v ts' hv =>
            have hp := ihc _ ts v ts' hv
            have hm := ihm limit (.unop u v) ts' e rest h ⟨hp.conforms, hp.left⟩
              (by simp [Tree.leftEdge]) (by
                intro p hp'
                rcases List.mem_cons.mp hp' with rfl | hp'
                · exact hp.stop
                · exact hp.right p hp')
            rw [(L.unOf_eq t u).mp hu, hp.text]
            simpa [Tree.syms] using hm
          · cases h
        · cases h
    · intro limit v ts e rest h hv hleft hright
      have stays : Stops L T limit ts → (v, ts) = (e, rest) →
          Parsed L T limit (v.syms L ++ ts) e rest := by
        intro hstop heq
        cases heq
        exact ⟨rfl, hv, hleft, hright, hstop⟩
      rw [climbMore] at h
      split at h
      · next o ho =>
        split_ifs at h with hlim
        · split at h
          · next r ts' hr =>
            have hp := ihc _ _ r ts' hr
            have hts := eq_cons_of_nextBin L ho
            have edge : ∀ p ∈ v.rightEdge, ¬ T.Takes p o := fun p hp' => hright p hp' o ho
            have hm := ihm limit (.binop o v r) ts' e rest h ⟨hv, hp.conforms, edge, hp.left⟩
              (by
                intro q hq
                rcases List.mem_cons.mp hq with rfl | hq
                · exact hlim
                · exact hleft q hq)
              (by
                intro p hp'
                rcases List.mem_cons.mp hp' with rfl | hp'
                · exact hp.stop
                · exact hp.right p hp')
            rw [hts, hp.text]
            simpa [Tree.syms] using hm
          · cases h
        · exact stays (fun q hq => by rw [ho] at hq; cases hq; exact hlim) (Option.some.inj h)
      · next ho =>
        exact stays (fun q hq => by rw [ho] at hq; cases hq) (Option.some.inj h)

/-- What can follow an operand inside a text that ends with `base`: operators, each with the text
of some tree after it. -/
inductive Tail (L : Lexis τ B U) (A : Type) (base : List (Sym τ A)) : List (Sym τ A) → Prop where
  | base : Tail L A base base
  | more (o : B) (t : Tree B U A) {k : List (Sym τ A)} (hk : Tail L A base k) :
      Tail L A base (.op (L.binTok o) :: (t.syms L ++ k))

/-- `climb` succeeds on the text of every tree, conforming or not, with enough fuel. -/
theorem climb_total (L : Lexis τ B U) (T : Table B U) (n : Nat) :
    (∀ limit (t : Tree B U A) base k, nextBin L base = none → Tail L A base k →
      (t.syms L ++ k).length ≤ n →
      ∃ e k', climb L T (n + 1) limit (t.syms L ++ k) = some (e, k') ∧ Tail L A base k' ∧
        k'.length < (t.syms L ++ k).length) ∧
    (∀ limit (v : Tree B U A) base k, nextBin L base = none → Tail L A base k →
      k.length ≤ n →
      ∃ e k', climbMore L T (n + 1) limit v k = some (e, k') ∧ Tail L A base k' ∧
        k'.length ≤ k.length) := by
  induction n with
  | zero =>
    constructor
    · intro limit t base k _ _ hn
      have := t.spine_le_length L
      cases t <;> simp [Tree.syms] at hn
    · intro limit v base k hb hk hn
      have hk0 : k = [] := List.length_eq_zero_iff.mp (Nat.le_zero.mp hn)
      subst hk0
      exact ⟨v, [], climbMore_stops L T _ _ _ _ (fun o ho => by simp [nextBin] at ho), hk,
        Nat.le_refl _⟩
  | succ n ih =>
    obtain ⟨ihc, ihm⟩ := ih
    have more : ∀ limit (v : Tree B U A) base k, nextBin L base = none → Tail L A base k →
        k.length ≤ n + 1 →
        ∃ e k', climbMore L T (n + 2) limit v k = some (e, k') ∧ Tail L A base k' ∧
          k'.length ≤ k.length := by
      intro limit v base k hb hk hn
      cases hk with
      | base =>
        exact ⟨v, base, climbMore_stops L T _ _ _ _ (fun o ho => by rw [hb] at ho; cases ho),
          .base, Nat.le_refl _⟩
      | @more o t k hk =>
        by_cases hlim : limit < T.left o
        · obtain ⟨r, k1, hr, hk1, hlen⟩ := ihc (T.right o) t base k hb hk
            (by simpa using hn)
          obtain ⟨e, k2, he, hk2, hlen2⟩ := ihm limit (.binop o v r) base k1 hb hk1
            (by simp at hn hlen; omega)
          refine ⟨e, k2, ?_, hk2, by simp at hlen ⊢; omega⟩
          rw [climbMore, nextBin_binTok]
          simp only [if_pos hlim, List.tail_cons, hr, he]
        · refine ⟨v, _, climbMore_stops L T _ _ _ _ ?_, .more o t hk, Nat.le_refl _⟩
          intro q hq
          rw [nextBin_binTok] at hq
          cases hq
          exact hlim
    refine ⟨?_, more⟩
    intro limit t
    induction t generalizing limit with
    | operand a =>
      intro base k hb hk hn
      obtain ⟨e, k', he, hk', hlen⟩ := ihm limit (.operand a) base k hb hk
        (by simpa [Tree.syms] using hn)
      exact ⟨e, k', by simpa [Tree.syms, climb] using he, hk', by simp [Tree.syms]; omega⟩
    | paren t _ =>
      intro base k hb hk hn
      simp only [Tree.syms, List.cons_append, List.append_assoc, List.nil_append,
        List.length_cons, List.length_append] at hn
      obtain ⟨e, k1, he, hk1, hlen⟩ := ihc 0 t (.rparen :: k) (.rparen :: k) rfl .base
        (by simp; omega)
      -- the limit 0 admits every operator, so reading stops at the closing parenthesis only
      have hstop := ((climb_parsed L T _).1 _ _ _ _ he).stop
      have hk1' : k1 = .rparen :: k := by
        cases hk1 with
        | base => rfl
        | more o t' hk1 => exact absurd (T.left_pos o) (hstop o (nextBin_binTok L o _))
      subst hk1'
      obtain ⟨v, k2, hv, hk2, hlen2⟩ := ihm limit (.paren e) base k hb hk (by omega)
      refine ⟨v, k2, ?_, hk2, by simp [Tree.syms]; omega⟩
      simp only [Tree.syms, List.cons_append, List.append_assoc, List.nil_append, climb, he]
      exact hv
    | unop u t _ =>
      intro base k hb hk hn
      simp only [Tree.syms, List.cons_append, List.length_cons, List.length_append] at hn
      obtain ⟨e, k1, he, hk1, hlen⟩ := ihc (T.unary u) t base k hb hk (by simp; omega)
      simp only [List.length_append] at hlen
      obtain ⟨v, k2, hv, hk2, hlen2⟩ := ihm limit (.unop u e) base k1 hb hk1 (by omega)
      refine ⟨v, k2, ?_, hk2, by simp [Tree.syms]; omega⟩
      simp only [Tree.syms, List.cons_append, climb, unOf_unTok, he]
      exact hv
    | binop o l r ihl _ =>
      intro base k hb hk hn
      obtain ⟨e, k', he, hk', hlen⟩ := ihl limit base _ hb (Tail.more o r hk)
        (by simpa [Tree.syms] using hn)
      exact ⟨e, k', by simpa [Tree.syms] using he, hk', by simpa [Tree.syms] using hlen⟩

/-- The text of any tree has a conforming tree. -/
theorem exists_conforms (L : Lexis τ B U) (T : Table B U) (t : Tree B U A) :
    ∃ e : Tree B U A, T.Conforms e ∧ e.syms L = t.syms L := by
  obtain ⟨e, k, he, hk, _⟩ := (climb_total L T (t.syms L).length).1 0 t [] [] rfl .base (by simp)
  have hp := (climb_parsed L T _).1 _ _ _ _ he
  have hk0 : k = [] := by
    cases hk with
    | base => rfl
    | more o t' hk => exact absurd (T.left_pos o) (hp.stop o (nextBin_binTok L o _))
  subst hk0
  exact ⟨e, hp.conforms, by simpa using hp.text.symm⟩

end UgmeeLua.Precedence

import UgmeeLua.Parser.Subexpr

namespace UgmeeLua

open Precedence BinOpr UnOpr

/-- The limits that `subexpr` reads from the priority table. -/
def codeTable : Table BinOpr UnOpr where
  left := BinOpr.left
  right := BinOpr.right
  unary _ := unaryPriority
  left_pos := by decide

/-- The precedences as declared: `^` and `..` right associative, the rest left associative. -/
def declaredLimits : BinOpr → Nat × Nat
  | OPR_OR => (1, 1)
  | OPR_AND => (2, 2)
  | OPR_EQ | OPR_NE | OPR_LT | OPR_LE | OPR_GT | OPR_GE => (3, 3)
  | OPR_CONCAT => (5, 4)
  | OPR_ADD | OPR_SUB | OPR_BOR | OPR_BAND | OPR_BXOR => (6, 6)
  | OPR_MUL | OPR_DIV | OPR_MOD | OPR_BLSHFT | OPR_BRSHFT => (7, 7)
  | OPR_POW => (10, 9)

def declared : Table BinOpr UnOpr where
  left o := (declaredLimits o).1
  right o := (declaredLimits o).2
  unary _ := 8
  left_pos := by decide

/-- Operators that have the priority of `*` in the table and in the declaration. -/
def mulLike : BinOpr → Bool
  | OPR_MUL | OPR_DIV | OPR_MOD | OPR_BLSHFT => true
  | _ => false

/-- Operators that have the priority of `+` in the table and in the declaration. -/
def addLike : BinOpr → Bool
  | OPR_ADD | OPR_SUB | OPR_BOR | OPR_BAND => true
  | _ => false

/-- The rows of `^`, `^^` and `>>` stand one place off in the table, so that `^` binds like `+`,
`^^` like `*` and `>>` like a power. These are the pairs whose order that changes: the operator
whose operand is being read, and the one that arrives. -/
def misgrouped : UnOpr ⊕ BinOpr → BinOpr → Bool
  | .inr OPR_POW, q => q = OPR_POW || q = OPR_BXOR || q = OPR_BRSHFT || mulLike q
  | .inr OPR_BXOR, q => q = OPR_POW || mulLike q
  | .inr OPR_BRSHFT, q => q = OPR_POW || q = OPR_BRSHFT
  | .inr p, q => addLike p && (q = OPR_POW || q = OPR_BXOR) ||
      mulLike p && (q = OPR_POW || q = OPR_BRSHFT)
  | .inl _, q => q = OPR_POW || q = OPR_BRSHFT

theorem takes_agree_iff (p : UnOpr ⊕ BinOpr) (q : BinOpr) :
    (codeTable.Takes p q ↔ declared.Takes p q) ↔ misgrouped p q = false := by
  revert p q
  decide

variable {A : Type}

/-- No two operators that compete for an operand are a misgrouped pair. -/
def NoClash (e : ExprTree A) : Prop := ∀ m ∈ e.meets, misgrouped m.1 m.2 = false

theorem conforms_code_iff (e : ExprTree A) (h : declared.Conforms e) :
    codeTable.Conforms e ↔ NoClash e := by
  rw [conforms_iff_meets declared codeTable e h]
  exact forall₂_congr fun m _ => takes_agree_iff m.1 m.2

/-- Nested calls of `subexpr` that a tree takes, the outermost one included. -/
def levels : ExprTree A → Nat
  | .operand _ => 1
  | .paren e => levels e + 1
  | .unop _ e => levels e + 1
  | .binop _ l r => max (levels l) (levels r + 1)

theorem levels_pos (e : ExprTree A) : 0 < levels e := by
  induction e with
  | operand a => simp [levels]
  | paren e ih => simp [levels]
  | unop u e ih => simp [levels]
  | binop o l r ihl ihr => exact lt_max_of_lt_left ihl

theorem unoprAt_eq_some (ts : List (ExprSym A)) (u : UnOpr) (h : unoprAt ts = some u) :
    ∃ t, ts = .op t :: ts.tail ∧ getunopr t = some u := by
  rcases ts with _ | ⟨_ | _ | _ | t, ts'⟩
  · simp [unoprAt] at h
  · simp [unoprAt] at h
  · simp [unoprAt] at h
  · simp [unoprAt] at h
  · exact ⟨t, rfl, h⟩

/-- What `subexpr` accepts, precedence climbing accepts with the same tree, and the tree fits into
the levels left. -/
theorem climb_of_subexpr (fuel : Nat) :
    (∀ nC limit (ts : List (ExprSym A)) e op rest,
      subexpr fuel nC limit ts = .ok (e, op, rest) →
      climb lexis codeTable fuel limit ts = some (e, rest) ∧ op = binoprAt rest ∧
        nC + levels e ≤ luaiMaxccalls) ∧
    (∀ nC limit v (ts : List (ExprSym A)) e op rest,
      subexprLoop fuel (nC + 1) limit v (binoprAt ts) ts = .ok (e, op, rest) →
      nC + levels v ≤ luaiMaxccalls →
      climbMore lexis codeTable fuel limit v ts = some (e, rest) ∧ op = binoprAt rest ∧
        nC + levels e ≤ luaiMaxccalls) ∧
    (∀ nC (ts : List (ExprSym A)) v ts', simpleexp fuel (nC + 1) ts = .ok (v, ts') →
      nC + 1 ≤ luaiMaxccalls → nC + levels v ≤ luaiMaxccalls ∧
        ∀ limit r, climbMore lexis codeTable fuel limit v ts' = some r →
          climb lexis codeTable (fuel + 1) limit ts = some r) := by
  induction fuel with
  | zero => refine ⟨?_, ?_, ?_⟩ <;> intros <;> simp_all [subexpr, subexprLoop, simpleexp]
  | succ f ih =>
    obtain ⟨ihs, ihl, ihe⟩ := ih
    refine ⟨?_, ?_, ?_⟩
    · intro nC limit ts e op rest h
      rw [subexpr] at h
      split_ifs at h with hlev
      have hlev' : nC + 1 ≤ luaiMaxccalls := Nat.le_of_not_lt hlev
      split at h
      · next u hu =>
        obtain ⟨t, hts, ht⟩ := unoprAt_eq_some ts u hu
        split at h
        · next v op' ts' hv =>
          obtain ⟨hc, -, hn⟩ := ihs _ _ _ _ _ _ hv
          obtain ⟨hm, hop, hl⟩ := ihl nC limit (.unop u v) ts' e op rest h
            (by simp only [levels]; omega)
          refine ⟨?_, hop, hl⟩
          rw [hts, climb]
          simp only [show lexis.unOf t = some u from ht]
          rw [show codeTable.unary u = unaryPriority from rfl, hc]
          exact hm
        · cases h
      · next hu =>
        split at h
        · next v ts' hv =>
          obtain ⟨hn, hclimb⟩ := ihe nC ts v ts' hv hlev'
          obtain ⟨hm, hop, hl⟩ := ihl nC limit v ts' e op rest h hn
          exact ⟨hclimb limit _ hm, hop, hl⟩
        · cases h
    · intro nC limit v ts e op rest h hn
      rw [subexprLoop.eq_def] at h
      simp only at h
      split at h
      · next o ho =>
        split_ifs at h with hlim
        · split at h
          · next w nextop ts' hw =>
            obtain ⟨hc, hop, hn'⟩ := ihs _ _ _ _ _ _ hw
            subst hop
            obtain ⟨hm, hop, hl⟩ := ihl nC limit (.binop o v w) ts' e op rest h
              (by simp only [levels]; omega)
            refine ⟨?_, hop, hl⟩
            rw [climbMore, show nextBin lexis ts = some o from ho]
            simp only [if_pos (show limit < codeTable.left o from hlim)]
            rw [show codeTable.right o = o.right from rfl, hc]
            exact hm
          · cases h
        · cases h
          refine ⟨?_, rfl, hn⟩
          apply climbMore_stops
          intro q hq
          rw [show nextBin lexis ts = some o from ho] at hq
          cases hq
          exact hlim
      · next ho =>
        cases h
        refine ⟨?_, rfl, hn⟩
        apply climbMore_stops
        intro q hq
        rw [show nextBin lexis ts = none from ho] at hq
        cases hq
    · intro nC ts v ts' h hlev
      rcases ts with _ | ⟨a | _ | _ | t, ts⟩
      · simp [simpleexp] at h
      · rw [simpleexp] at h
        cases h
        exact ⟨hlev, fun limit r hm => hm⟩
      · rw [simpleexp] at h
        split at h
        · next w op ts'' hw =>
          cases h
          obtain ⟨hc, -, hl⟩ := ihs _ _ _ _ _ _ hw
          refine ⟨by simp only [levels]; omega, fun limit r hm => ?_⟩
          rw [climb, (climb_succ _ _ f).1 _ _ _ hc]
          exact hm
        · cases h
        · cases h
      · simp [simpleexp] at h
      · simp [simpleexp] at h

/-- The tree grows around the operand that its reading starts with. -/
theorem levels_climbMore (fuel limit : Nat) (v : ExprTree A) (ts : List (ExprSym A))
    (e : ExprTree A) (rest : List (ExprSym A))
    (h : climbMore lexis codeTable fuel limit v ts = some (e, rest)) : levels v ≤ levels e := by
  induction fuel generalizing v ts with
  | zero => simp [climbMore] at h
  | succ f ih =>
    rw [climbMore] at h
    split at h
    · next o ho =>
      split_ifs at h with hlim
      · split at h
        · next w ts' hw => exact (le_max_left _ _).trans (ih _ _ h)
        · cases h
      · cases h
        exact Nat.le_refl _
    · cases h
      exact Nat.le_refl _

/-- Conversely `subexpr` returns what precedence climbing does when the tree fits into the levels
left; a parenthesis costs it one call more. -/
theorem subexpr_of_climb (n : Nat) :
    (∀ fuel nC limit (ts : List (ExprSym A)) e rest, 2 * n ≤ fuel →
      climb lexis codeTable n limit ts = some (e, rest) → nC + levels e ≤ luaiMaxccalls →
      subexpr fuel nC limit ts = .ok (e, binoprAt rest, rest)) ∧
    (∀ fuel nC limit v (ts : List (ExprSym A)) e rest, 2 * n ≤ fuel →
      climbMore lexis codeTable n limit v ts = some (e, rest) → nC + levels e ≤ luaiMaxccalls →
      subexprLoop fuel (nC + 1) limit v (binoprAt ts) ts = .ok (e, binoprAt rest, rest)) := by
  induction n with
  | zero => constructor <;> intros <;> simp_all [climb, climbMore]
  | succ n ih =>
    obtain ⟨ihs, ihl⟩ := ih
    constructor
    · intro fuel nC limit ts e rest hf h hn
      obtain ⟨f, rfl⟩ : ∃ f, fuel = f + 2 := ⟨fuel - 2, by omega⟩
      have hlev : ¬ luaiMaxccalls < nC + 1 := by have := levels_pos e; omega
      rw [subexpr, if_neg hlev]
      rcases ts with _ | ⟨a | _ | _ | t, ts⟩
      · simp [climb] at h
      · simp only [unoprAt, simpleexp]
        exact ihl _ _ _ _ _ _ _ (by omega) h hn
      · rw [climb] at h
        split at h
        · next w ts' hw =>
          have hl := levels_climbMore _ _ _ _ _ _ h
          simp only [levels] at hl
          simp only [unoprAt, simpleexp, ihs f (nC + 1) 0 ts w _ (by omega) hw (by omega)]
          exact ihl _ _ _ _ _ _ _ (by omega) h hn
        · cases h
      · simp [climb] at h
      · rw [climb] at h
        split at h
        · next u hu =>
          split at h
          · next w ts' hw =>
            have hl := levels_climbMore _ _ _ _ _ _ h
            simp only [levels] at hl
            simp only [unoprAt, show getunopr t = some u from hu, List.tail_cons,
              ihs (f + 1) (nC + 1) unaryPriority ts w ts' (by omega) hw (by omega)]
            exact ihl _ _ _ _ _ _ _ (by omega) h hn
          · cases h
        · cases h
    · intro fuel nC limit v ts e rest hf h hn
      obtain ⟨f, rfl⟩ : ∃ f, fuel = f + 1 := ⟨fuel - 1, by omega⟩
      rw [subexprLoop.eq_def]
      rw [climbMore] at h
      simp only [binoprAt]
      split at h
      · next o ho =>
        rw [ho]
        simp only
        split_ifs at h with hlim
        · rw [if_pos (show limit < o.left from hlim)]
          split at h
          · next w ts' hw =>
            have hl := levels_climbMore _ _ _ _ _ _ h
            simp only [levels] at hl
            rw [ihs f (nC + 1) o.right ts.tail w ts' (by omega) hw (by omega)]
            exact ihl _ _ _ _ _ _ _ (by omega) h hn
          · cases h
        · cases h
          rw [if_neg (show ¬ limit < o.left from hlim), ho]
      · next ho =>
        cases h
        rw [ho]

theorem stops_of_none (rest : List (ExprSym A)) (h : binoprAt rest = none) (n : Nat) :
    Stops lexis codeTable n rest := by
  intro o ho
  rw [show nextBin lexis rest = none from h] at ho
  cases ho

theorem climb_of_conforms_code (e : ExprTree A) (rest : List (ExprSym A)) (n : Nat)
    (hc : codeTable.Conforms e) (h : binoprAt rest = none) (hn : (e.syms lexis).length ≤ n) :
    climb lexis codeTable (n + 1) 0 (e.syms lexis ++ rest) = some (e, rest) := by
  have hs := e.spine_le_length lexis
  rw [climb_syms lexis codeTable e n 0 rest hc hn (fun o _ => codeTable.left_pos o)
    (fun p _ => stops_of_none rest h _), show n + 1 - e.spine = (n - e.spine) + 1 by omega]
  exact climbMore_stops _ _ _ _ _ _ (stops_of_none rest h 0)

/-- On the text of a tree grouped as declared, `subexpr` returns that tree exactly when the tree
has no misgrouped pair and fits into the levels left. -/
theorem subexpr_of_conforms (e : ExprTree A) (rest : List (ExprSym A)) (fuel nC : Nat)
    (hd : declared.Conforms e) (h : binoprAt rest = none)
    (hf : 2 * (e.syms lexis).length + 2 ≤ fuel) :
    subexpr fuel nC 0 (e.syms lexis ++ rest) = .ok (e, none, rest) ↔
      NoClash e ∧ nC + levels e ≤ luaiMaxccalls := by
  constructor
  · intro hsub
    obtain ⟨hc, -, hl⟩ := (climb_of_subexpr fuel).1 _ _ _ _ _ _ hsub
    have hp := (climb_parsed _ _ _).1 _ _ _ _ hc
    exact ⟨(conforms_code_iff e hd).mp hp.conforms, hl⟩
  · rintro ⟨hclash, hl⟩
    have hc := (conforms_code_iff e hd).mpr hclash
    have hclimb := climb_of_conforms_code e rest _ hc h (Nat.le_refl _)
    have hsub := (subexpr_of_climb _).1 fuel nC 0 _ e rest (by omega) hclimb hl
    rwa [h] at hsub

/-- Every expression text has one tree grouped as declared, and `subexpr` arrives at it exactly
when no two operators that compete in it are a misgrouped pair and its nesting fits. -/
theorem subexpr_groups_correct (t : ExprTree A) (rest : List (ExprSym A))
    (h : binoprAt rest = none) :
    ∃ e : ExprTree A, declared.Conforms e ∧ e.syms lexis = t.syms lexis ∧
      (∀ e', declared.Conforms e' → e'.syms lexis = t.syms lexis → e' = e) ∧
      ∀ fuel nC, 2 * (t.syms lexis).length + 2 ≤ fuel →
        (subexpr fuel nC 0 (t.syms lexis ++ rest) = .ok (e, none, rest) ↔
          NoClash e ∧ nC + levels e ≤ luaiMaxccalls) := by
  obtain ⟨e, hd, he⟩ := exists_conforms lexis declared t
  refine ⟨e, hd, he, ?_, ?_⟩
  · intro e' hd' he'
    exact conforms_unique lexis declared e' e hd' hd (he'.trans he.symm)
  · intro fuel nC hf
    rw [← he] at hf ⊢
    exact subexpr_of_conforms e rest fuel nC hd h hf

theorem subexpr_groups_sum_of_product :
    binoprAt ([.rparen] : List (ExprSym Nat)) = none ∧
    ∃ e : ExprTree Nat, declared.Conforms e ∧
      e.syms lexis = Tree.syms lexis
        (.binop OPR_ADD (.operand 1) (.binop OPR_MUL (.operand 2) (.operand 3))) ∧
      ∀ fuel nC, 12 ≤ fuel →
        (subexpr fuel nC 0 (e.syms lexis ++ [.rparen]) = .ok (e, none, [.rparen]) ↔
          NoClash e ∧ nC + levels e ≤ luaiMaxccalls) := by
  refine ⟨rfl, ?_⟩
  obtain ⟨e, hd, he, -, h⟩ := subexpr_groups_correct
    (.binop OPR_ADD (.operand 1) (.binop OPR_MUL (.operand 2) (.operand 3)) : ExprTree Nat)
    [.rparen] rfl
  refine ⟨e, hd, he, ?_⟩
  rw [he]
  exact h

/-- `a*b^c` is declared to be a*(b^c) and comes out as (a*b)^c. -/
theorem mul_pow_misgrouped :
    ∃ e : ExprTree Char,
      e = .binop OPR_MUL (.operand 'a') (.binop OPR_POW (.operand 'b') (.operand 'c')) ∧
      declared.Conforms e ∧
      subexpr 12 0 0 (e.syms lexis) =
        .ok (.binop OPR_POW (.binop OPR_MUL (.operand 'a') (.operand 'b')) (.operand 'c'),
          none, []) := by
  refine ⟨_, rfl, ?_, rfl⟩
  simp [Table.Conforms, Tree.leftEdge, Tree.rightEdge]
  decide

end UgmeeLua

import Mathlib.Data.Set.Basic
import UgmeeLua.Parser.Levels

namespace UgmeeLua.Levels

open Nesting Stateful RESERVED

/-! ## What does not call -/

section Scanner

variable {T d : Nat} {b : Nat → Nat}

theorem nests_token : Nests T d b token := nests_get fun _ => nests_pure _

theorem nests_set (ls : LexState) : Nests T d b (set ls) := nests_state fun _ => ls

theorem nests_next : Nests T d b next := by
  refine nests_get fun s => ?_
  dsimp only
  split
  · exact nests_set _
  · split
    · exact nests_throw _
    · exact nests_set _

theorem nests_lookahead : Nests T d b lookahead := by
  refine nests_get fun s => ?_
  split
  · exact nests_throw _
  · exact nests_bind (nests_set _) fun _ => nests_pure _

theorem nests_testnext (c : Token) : Nests T d b (testnext c) :=
  nests_bind nests_token fun _ => nests_ite (nests_bind nests_next fun _ => nests_pure _) (nests_pure _)

theorem nests_check (c : Token) : Nests T d b (check c) :=
  nests_bind nests_token fun _ => nests_ite (nests_pure _) (nests_throw _)

theorem nests_checknext (c : Token) : Nests T d b (checknext c) := nests_bind (nests_check c) fun _ => nests_next

theorem nests_checkmatch (what who : Token) (line : Nat) : Nests T d b (checkmatch what who line) :=
  nests_bind (nests_testnext what) fun _ => nests_ite (nests_pure _)
    (nests_get fun _ => nests_ite (nests_throw _) (nests_throw _))

theorem nests_linenumber : Nests T d b linenumber := nests_get fun _ => nests_pure _

theorem nests_strCheckname : Nests T d b strCheckname := nests_checknext _

theorem nests_singlevar : Nests T d (fun n => b n + 1) singlevar := nests_call nests_strCheckname

theorem nests_field : Nests T d (fun n => b n + 1) field :=
  nests_call (nests_bind nests_next fun _ => nests_strCheckname)

theorem nests_parlistLoop (n : Nat) : Nests T d b (parlistLoop n) := by
  induction n with
  | zero => exact nests_throw _
  | succ n ih =>
    refine nests_bind nests_token fun t => ?_
    split
    · exact nests_bind nests_next fun _ => nests_bind (nests_testnext _) fun _ => nests_ite ih (nests_pure _)
    · exact nests_bind nests_next fun _ => nests_pure _
    · exact nests_throw _

theorem nests_parlist (n : Nat) : Nests T d (fun n => b n + 1) (parlist n) :=
  nests_call (nests_bind nests_token fun _ => nests_ite (nests_pure _) (nests_parlistLoop n))

theorem nests_breakstat (fs : FuncState) : Nests T d (fun n => b n + 1) (breakstat fs) :=
  nests_call (nests_ite (nests_pure _) (nests_throw _))

theorem nests_funcname (n : Nat) : Nests T d (fun n => b n + 2) (funcname n) := by
  refine nests_call (nests_bind nests_singlevar fun _ => nests_bind (nests_repeats ?_ _ n) fun _ => ?_)
  · exact nests_bind nests_token fun _ => nests_ite (nests_bind nests_field fun _ => nests_pure _) (nests_pure _)
  · exact nests_bind nests_token fun _ => nests_ite nests_field (nests_pure _)

end Scanner

/-! ## The functions that call each other -/

section Functions

variable {T d : Nat} {r : Nat → Nat} {α : Type} {m : Parse α}

theorem nests_more {a c : Nat} (h : Nests T 0 (fun n => r n + a) m) (hac : a ≤ c) : Nests T d (fun n => r n + c) m :=
  nests_mono h (Nat.zero_le d) fun n => Nat.add_le_add_left hac (r n)

variable {chunk : FuncState → Parse Unit} {subexpr : FuncState → Nat → Parse (Option BinOpr)} {n : Nat}

section Expressions

variable (hsubexpr : ∀ fs limit, Nests T 0 r (subexpr fs limit))

include hsubexpr

theorem nests_expr (fs : FuncState) : Nests T d (fun n => r n + 1) (expr subexpr fs) :=
  nests_call (nests_bind (nests_mono (hsubexpr fs 0) (Nat.zero_le _) fun _ => Nat.le_refl _) fun _ => nests_pure _)

theorem nests_yindex (fs : FuncState) : Nests T d (fun n => r n + 2) (yindex subexpr fs) :=
  nests_call (nests_bind nests_next fun _ => nests_bind (nests_expr hsubexpr fs) fun _ => nests_checknext _)

theorem nests_recfield (fs : FuncState) : Nests T d (fun n => r n + 3) (recfield subexpr fs) := by
  have hval : Nests T (d + 1) (fun n => r n + 2) (do
      checknext (.ofChar '=')
      expr subexpr fs) :=
    nests_bind (nests_checknext _) fun _ => nests_more (nests_expr hsubexpr fs) (by decide)
  refine nests_call (nests_bind nests_token fun _ => nests_ite ?_ ?_)
  · exact nests_bind nests_strCheckname fun _ => hval
  · exact nests_bind (nests_yindex hsubexpr fs) fun _ => hval

theorem nests_listfield (fs : FuncState) : Nests T d (fun n => r n + 2) (listfield subexpr fs) :=
  nests_call (nests_expr hsubexpr fs)

theorem nests_constructorItem (fs : FuncState) : Nests T d (fun n => r n + 3) (constructorItem subexpr fs) := by
  have hrec : Nests T d (fun n => r n + 3) (recfield subexpr fs) := nests_recfield hsubexpr fs
  have hlist : Nests T d (fun n => r n + 3) (listfield subexpr fs) :=
    nests_more (nests_listfield hsubexpr fs) (by decide)
  have hnext : Nests T d (fun n => r n + 3) (do
      if ← testnext (.ofChar ',') then pure true
      else testnext (.ofChar ';')) :=
    nests_bind (nests_testnext _) fun _ => nests_ite (nests_pure _) (nests_testnext _)
  refine nests_bind nests_token fun t => nests_ite (nests_pure _) (nests_ite ?_ (nests_ite ?_ ?_))
  · exact nests_bind nests_lookahead fun _ => nests_ite (nests_bind hrec fun _ => hnext)
      (nests_bind hlist fun _ => hnext)
  · exact nests_bind hrec fun _ => hnext
  · exact nests_bind hlist fun _ => hnext

theorem nests_constructor (fs : FuncState) : Nests T d (fun n => r n + 4) (constructor subexpr n fs) :=
  nests_call (nests_bind nests_linenumber fun _ => nests_bind (nests_checknext _) fun _ =>
    nests_bind (nests_repeats (nests_constructorItem hsubexpr fs) _ n) fun _ => nests_checkmatch _ _ _)

theorem nests_explist1 (fs : FuncState) : Nests T d (fun n => r n + 2) (explist1 subexpr n fs) := by
  refine nests_call (nests_bind (nests_expr hsubexpr fs) fun _ => nests_repeats ?_ _ n)
  exact nests_bind (nests_testnext _) fun _ =>
    nests_ite (nests_bind (nests_expr hsubexpr fs) fun _ => nests_pure _) (nests_pure _)

theorem nests_funcargs (fs : FuncState) : Nests T d (fun n => r n + 5) (funcargs subexpr n fs) := by
  refine nests_call (nests_bind nests_linenumber fun _ => nests_bind nests_token fun t => nests_ite ?_
    (nests_ite (nests_constructor hsubexpr fs) (nests_ite nests_next (nests_throw _))))
  refine nests_get fun _ => nests_ite ?_ (nests_throw _)
  refine nests_bind nests_next fun _ => nests_bind nests_token fun _ => nests_ite ?_ ?_
  · exact nests_checkmatch _ _ _
  · exact nests_bind (nests_more (nests_explist1 hsubexpr fs) (by decide)) fun _ => nests_checkmatch _ _ _

theorem nests_prefixexp (fs : FuncState) : Nests T d (fun n => r n + 2) (prefixexp subexpr fs) := by
  refine nests_call (nests_bind nests_token fun t => nests_ite ?_ (nests_ite ?_ (nests_throw _)))
  · exact nests_bind nests_linenumber fun _ => nests_bind nests_next fun _ =>
      nests_bind (nests_expr hsubexpr fs) fun _ => nests_bind (nests_checkmatch _ _ _) fun _ => nests_pure _
  · exact nests_bind nests_singlevar fun _ => nests_pure _

theorem nests_primaryexpLoop (fs : FuncState) (m : Nat) (v : ExpKind) :
    Nests T d (fun n => r n + 5) (primaryexpLoop subexpr n fs m v) := by
  induction m generalizing v with
  | zero => exact nests_throw _
  | succ m ih =>
    refine nests_bind nests_token fun t => nests_ite ?_ (nests_ite ?_ (nests_ite ?_ (nests_ite ?_ (nests_pure _))))
    · exact nests_bind nests_field fun _ => ih _
    · exact nests_bind (nests_more (nests_yindex hsubexpr fs) (by decide)) fun _ => ih _
    · exact nests_bind nests_next fun _ => nests_bind nests_strCheckname fun _ =>
        nests_bind (nests_funcargs hsubexpr fs) fun _ => ih _
    · exact nests_bind (nests_funcargs hsubexpr fs) fun _ => ih _

theorem nests_primaryexp (fs : FuncState) : Nests T d (fun n => r n + 6) (primaryexp subexpr n fs) :=
  nests_call (nests_bind (nests_more (nests_prefixexp hsubexpr fs) (by decide)) fun v =>
    nests_primaryexpLoop hsubexpr fs n v)

theorem nests_subexprLoop (fs : FuncState) (limit m : Nat) (op : Option BinOpr) :
    Nests T d r (subexprLoop subexpr fs limit m op) := by
  induction m generalizing op with
  | zero => exact nests_throw _
  | succ m ih =>
    cases op with
    | none => exact nests_pure _
    | some o =>
      refine nests_ite (nests_bind nests_next fun _ => nests_bind ?_ fun op => ih op) (nests_pure _)
      exact nests_mono (hsubexpr fs o.right) (Nat.zero_le _) fun _ => Nat.le_refl _

/-- What `assignment` does behind its check. -/
theorem nests_target {b : Nat → Nat} (fs : FuncState) (m : Nat) (v : ExpKind) (nvars : Nat) (hb : ∀ n, r n + 6 ≤ b n)
    (hnext : ∀ nv, Nests T d b (assignment subexpr n fs m nv (nvars + 1))) :
    Nests T d b (do
      if v = .variable then do
        if ← testnext (.ofChar ',') then do
          let nv ← primaryexp subexpr n fs
          assignment subexpr n fs m nv (nvars + 1)
        else do
          checknext (.ofChar '=')
          explist1 subexpr n fs
      else throw (.syntaxerror "syntax error")) := by
  refine nests_ite (nests_bind (nests_testnext _) fun _ => nests_ite ?_ ?_) (nests_throw _)
  · exact nests_bind (nests_mono (nests_primaryexp hsubexpr fs) (Nat.zero_le _) hb) hnext
  · refine nests_bind (nests_checknext _) fun _ => nests_mono (nests_explist1 hsubexpr fs) (Nat.zero_le _) fun n => ?_
    exact Nat.le_trans (Nat.add_le_add_left (by decide) _) (hb n)

/-- A chain of targets that is not too long adds a call for each of them. -/
theorem nests_assignment (fs : FuncState) (m : Nat) (v : ExpKind) (nvars : Nat) (hd : nvars ≤ d + 1) :
    Nests T d (fun n => r n + (T + 1 - nvars) + 7) (assignment subexpr n fs m v nvars) := by
  induction m generalizing v nvars d with
  | zero => exact nests_throw _
  | succ m ih =>
    have hnext : ∀ nv, Nests T (d + 1) (fun n => r n + (T + 1 - (nvars + 1)) + 7)
        (assignment subexpr n fs m nv (nvars + 1)) := fun nv => ih nv (nvars + 1) (Nat.succ_le_succ hd)
    refine nests_call ?_
    by_cases hT : T < nvars
    · exact nests_chained_beyond hd hT (nests_target hsubexpr fs m v nvars (fun n => by omega) hnext)
    · refine nests_bind (nests_chained hd) fun _ => nests_target hsubexpr fs m v nvars (fun n => by omega) fun nv => ?_
      refine nests_mono (hnext nv) (Nat.le_refl _) fun n => ?_
      omega

theorem nests_cond (fs : FuncState) : Nests T d (fun n => r n + 2) (cond subexpr fs) :=
  nests_call (nests_expr hsubexpr fs)

theorem nests_exp1 (fs : FuncState) : Nests T d (fun n => r n + 2) (exp1 subexpr fs) :=
  nests_call (nests_expr hsubexpr fs)

theorem nests_localstat (fs : FuncState) : Nests T d (fun n => r n + 3) (localstat subexpr n fs) := by
  refine nests_call (nests_bind nests_strCheckname fun _ => nests_bind (nests_repeats ?_ _ n) fun _ => ?_)
  · exact nests_bind (nests_testnext _) fun _ =>
      nests_ite (nests_bind nests_strCheckname fun _ => nests_pure _) (nests_pure _)
  · exact nests_bind (nests_testnext _) fun _ => nests_ite (nests_explist1 hsubexpr fs) (nests_pure _)

theorem nests_exprstat (fs : FuncState) : Nests T d (fun n => r n + T + 8) (exprstat subexpr n fs) := by
  refine nests_call (nests_bind (m := primaryexp subexpr n fs) ?_ fun v => nests_ite (nests_pure _) ?_)
  · refine nests_mono (nests_primaryexp hsubexpr fs) (Nat.zero_le _) fun n => ?_
    omega
  · exact nests_assignment hsubexpr fs n v 1 (by omega)

theorem nests_retstat (fs : FuncState) : Nests T d (fun n => r n + 3) (retstat subexpr n fs) :=
  nests_call (nests_bind nests_next fun _ => nests_bind nests_token fun _ =>
    nests_ite (nests_pure _) (nests_explist1 hsubexpr fs))

end Expressions

section Statements

variable (hchunk : ∀ fs, Nests T 0 r (chunk fs))

include hchunk

theorem nests_chunk (fs : FuncState) : Nests T d r (chunk fs) :=
  nests_mono (hchunk fs) (Nat.zero_le _) fun _ => Nat.le_refl _

theorem nests_block (fs : FuncState) : Nests T d (fun n => r n + 1) (block chunk fs) :=
  nests_call (nests_chunk hchunk fs)

theorem nests_body (line : Nat) : Nests T d (fun n => r n + 2) (body chunk n line) := by
  refine nests_call (nests_bind (nests_checknext _) fun _ => nests_bind (nests_parlist n) fun v =>
    nests_bind (nests_checknext _) fun _ => nests_bind ?_ fun _ => nests_checkmatch _ _ _)
  exact nests_mono (hchunk _) (Nat.zero_le _) fun _ => Nat.le_succ _

theorem nests_forbody (fs : FuncState) : Nests T d (fun n => r n + 2) (forbody chunk fs) :=
  nests_call (nests_bind (nests_checknext _) fun _ => nests_block hchunk fs)

theorem nests_localfunc : Nests T d (fun n => r n + 3) (localfunc chunk n) :=
  nests_call (nests_bind nests_strCheckname fun _ => nests_bind nests_linenumber fun _ => nests_body hchunk _)

theorem nests_funcstat (line : Nat) : Nests T d (fun n => r n + 3) (funcstat chunk n line) :=
  nests_call (nests_bind nests_next fun _ => nests_bind (nests_funcname n) fun _ => nests_body hchunk line)

variable (hsubexpr : ∀ fs limit, Nests T 0 r (subexpr fs limit))

include hsubexpr

theorem nests_simpleexp (fs : FuncState) : Nests T d (fun n => r n + 7) (simpleexp chunk subexpr n fs) := by
  refine nests_call (nests_bind nests_token fun t => ?_)
  split
  · exact nests_next
  · exact nests_next
  · exact nests_next
  · exact nests_next
  · exact nests_next
  · exact nests_ite nests_next (nests_throw _)
  · exact nests_bind nests_next fun _ => nests_bind nests_linenumber fun _ =>
      nests_more (nests_body hchunk _) (by decide)
  · refine nests_ite (nests_more (nests_constructor hsubexpr fs) (by decide)) ?_
    exact nests_bind (nests_primaryexp hsubexpr fs) fun _ => nests_pure _

theorem nests_whilestat (fs : FuncState) (line : Nat) :
    Nests T d (fun n => r n + 3) (whilestat chunk subexpr fs line) := by
  refine nests_call (nests_bind nests_next fun _ => nests_bind (nests_cond hsubexpr fs) fun _ =>
    nests_bind (nests_checknext _) fun _ => nests_bind ?_ fun _ => nests_checkmatch _ _ _)
  exact nests_more (nests_block hchunk _) (by decide)

theorem nests_repeatstat (fs : FuncState) (line : Nat) :
    Nests T d (fun n => r n + 3) (repeatstat chunk subexpr fs line) := by
  refine nests_call (nests_bind nests_next fun _ => nests_bind ?_ fun _ =>
    nests_bind (nests_checkmatch _ _ _) fun _ => nests_bind (nests_cond hsubexpr _) fun _ => ?_)
  · exact nests_more (a := 0) (hchunk _) (by decide)
  · exact nests_breakstat _

theorem nests_fornum (fs : FuncState) : Nests T d (fun n => r n + 3) (fornum chunk subexpr fs) := by
  refine nests_call (nests_bind (nests_checknext _) fun _ => nests_bind (nests_exp1 hsubexpr fs) fun _ =>
    nests_bind (nests_checknext _) fun _ => nests_bind (nests_exp1 hsubexpr fs) fun _ =>
      nests_bind (nests_testnext _) fun _ => nests_ite ?_ ?_)
  · exact nests_bind (nests_exp1 hsubexpr fs) fun _ => nests_forbody hchunk fs
  · exact nests_forbody hchunk fs

theorem nests_forlist (fs : FuncState) : Nests T d (fun n => r n + 3) (forlist chunk subexpr n fs) := by
  refine nests_call (nests_bind (nests_repeats ?_ _ n) fun _ => nests_bind (nests_checknext _) fun _ =>
    nests_bind (nests_explist1 hsubexpr fs) fun _ => nests_forbody hchunk fs)
  exact nests_bind (nests_testnext _) fun _ =>
    nests_ite (nests_bind nests_strCheckname fun _ => nests_pure _) (nests_pure _)

theorem nests_forstat (fs : FuncState) (line : Nat) :
    Nests T d (fun n => r n + 4) (forstat chunk subexpr n fs line) := by
  refine nests_call (nests_bind nests_next fun _ => nests_bind nests_strCheckname fun _ =>
    nests_bind nests_token fun _ => nests_ite ?_ (nests_ite ?_ (nests_throw _)))
  · exact nests_bind (nests_fornum hchunk hsubexpr _) fun _ => nests_checkmatch _ _ _
  · exact nests_bind (nests_forlist hchunk hsubexpr _) fun _ => nests_checkmatch _ _ _

theorem nests_testThenBlock (fs : FuncState) : Nests T d (fun n => r n + 3) (testThenBlock chunk subexpr fs) :=
  nests_call (nests_bind nests_next fun _ => nests_bind (nests_cond hsubexpr fs) fun _ =>
    nests_bind (nests_checknext _) fun _ => nests_more (nests_block hchunk fs) (by decide))

theorem nests_ifstat (fs : FuncState) (line : Nat) :
    Nests T d (fun n => r n + 4) (ifstat chunk subexpr n fs line) := by
  refine nests_call (nests_bind (nests_testThenBlock hchunk hsubexpr fs) fun _ =>
    nests_bind (nests_repeats ?_ _ n) fun _ => nests_bind nests_token fun _ => nests_ite ?_ (nests_checkmatch _ _ _))
  · exact nests_bind nests_token fun _ =>
      nests_ite (nests_bind (nests_testThenBlock hchunk hsubexpr fs) fun _ => nests_pure _) (nests_pure _)
  · exact nests_bind nests_next fun _ => nests_bind (nests_more (nests_block hchunk fs) (by decide)) fun _ =>
      nests_checkmatch _ _ _

theorem nests_statement (fs : FuncState) : Nests T d (fun n => r n + T + 9) (statement chunk subexpr n fs) := by
  have hmore : ∀ {α : Type} {m : Parse α} {c : Nat}, c ≤ 8 → Nests T 0 (fun n => r n + c) m →
      Nests T (d + 1) (fun n => r n + T + 8) m := by
    intro α m c hc hm
    refine nests_mono hm (Nat.zero_le _) fun n => ?_
    omega
  refine nests_call (nests_bind nests_linenumber fun line => nests_bind nests_token fun t => ?_)
  split
  · exact nests_bind (hmore (by decide) (nests_ifstat hchunk hsubexpr fs line)) fun _ => nests_pure _
  · exact nests_bind (hmore (by decide) (nests_whilestat hchunk hsubexpr fs line)) fun _ => nests_pure _
  · exact nests_bind nests_next fun _ => nests_bind (hmore (by decide) (nests_block hchunk fs)) fun _ =>
      nests_bind (nests_checkmatch _ _ _) fun _ => nests_pure _
  · exact nests_bind (hmore (by decide) (nests_forstat hchunk hsubexpr fs line)) fun _ => nests_pure _
  · exact nests_bind (hmore (by decide) (nests_repeatstat hchunk hsubexpr fs line)) fun _ => nests_pure _
  · exact nests_bind (hmore (by decide) (nests_funcstat hchunk line)) fun _ => nests_pure _
  · refine nests_bind nests_next fun _ => nests_bind (nests_testnext _) fun _ => nests_ite ?_ ?_
    · exact nests_bind (hmore (by decide) (nests_localfunc hchunk)) fun _ => nests_pure _
    · exact nests_bind (hmore (by decide) (nests_localstat hsubexpr fs)) fun _ => nests_pure _
  · exact nests_bind (hmore (by decide) (nests_retstat hsubexpr fs)) fun _ => nests_pure _
  · exact nests_bind nests_next fun _ => nests_bind (hmore (c := 1) (by decide) (nests_breakstat fs)) fun _ =>
      nests_pure _
  · exact nests_bind (nests_exprstat hsubexpr fs) fun _ => nests_pure _

/-- A pass of `chunk`. -/
theorem nests_pass (fs : FuncState) : Nests T d (fun n => r n + T + 9) (do
    if blockFollow (← token) then pure false
    else do
      let islast ← statement chunk subexpr n fs
      let _ ← testnext (.ofChar ';')
      pure !islast) := by
  refine nests_bind nests_token fun _ => nests_ite (nests_pure _) ?_
  exact nests_bind (nests_statement hchunk hsubexpr fs) fun _ => nests_bind (nests_testnext _) fun _ =>
    nests_pure _

end Statements

end Functions

/-! ## Runs of the parser -/

/-- The calls that a function with a level nests, where `n` levels are counted. -/
def levelBound (T n : Nat) : Nat := (T + 10) * (luaiMaxccalls - n) + 1

section Parsers

variable {T : Nat}

theorem levelBound_succ {n : Nat} (h : n < luaiMaxccalls) :
    levelBound T (n + 1) + T + 9 = (T + 10) * (luaiMaxccalls - n) := by
  have hsplit : luaiMaxccalls - n = luaiMaxccalls - (n + 1) + 1 := by omega
  rw [levelBound, hsplit, Nat.mul_succ]
  omega

theorem nests_chunkBody {chunk : FuncState → Parse Unit} {subexpr : FuncState → Nat → Parse (Option BinOpr)}
    {n : Nat} (hchunk : ∀ fs, Nests T 0 (levelBound T) (chunk fs))
    (hsubexpr : ∀ fs limit, Nests T 0 (levelBound T) (subexpr fs limit)) (fs : FuncState) :
    Nests T 0 (levelBound T) (chunkBody chunk subexpr n fs) :=
  nests_call (nests_counting (nests_repeats (nests_pass hchunk hsubexpr fs) _ n) fun _ hn =>
    Nat.le_of_eq (levelBound_succ hn))

theorem nests_subexprBody {chunk : FuncState → Parse Unit} {subexpr : FuncState → Nat → Parse (Option BinOpr)}
    {n : Nat} (hchunk : ∀ fs, Nests T 0 (levelBound T) (chunk fs))
    (hsubexpr : ∀ fs limit, Nests T 0 (levelBound T) (subexpr fs limit)) (fs : FuncState) (limit : Nat) :
    Nests T 0 (levelBound T) (subexprBody chunk subexpr n fs limit) := by
  refine nests_call (nests_counting (b := fun n => levelBound T n + 7) (nests_bind nests_token fun t => ?_)
    fun n hn => ?_)
  · have hloop : Nests T 1 (fun n => levelBound T n + 7)
        (do subexprLoop subexpr fs limit n (getbinopr (← token))) :=
      nests_bind nests_token fun _ => nests_more (a := 0) (nests_subexprLoop hsubexpr fs limit n _) (by decide)
    split
    · exact nests_bind nests_next fun _ => nests_bind
        (nests_more (a := 0) (hsubexpr fs unaryPriority) (by decide)) fun _ => hloop
    · exact nests_bind (nests_simpleexp hchunk hsubexpr fs) fun _ => hloop
  · have := levelBound_succ (T := T) hn
    omega

theorem parsers_nests (n : Nat) : (∀ fs, Nests T 0 (levelBound T) ((parsers n).1 fs)) ∧
    ∀ fs limit, Nests T 0 (levelBound T) ((parsers n).2 fs limit) := by
  induction n with
  | zero => exact ⟨fun _ => nests_throw _, fun _ _ => nests_throw _⟩
  | succ n ih => exact ⟨nests_chunkBody ih.1 ih.2, nests_subexprBody ih.1 ih.2⟩

theorem nests_luaYParser (n : Nat) : Nests T 0 (fun n => levelBound T n + 1) (luaYParser n) :=
  nests_call (nests_bind nests_next fun _ =>
    nests_bind (nests_mono ((parsers_nests n).1 _) (Nat.zero_le _) fun _ => Nat.le_refl _) fun _ => nests_check _)

end Parsers

/-- The state that a run of the parser ends in, with the text accepted or refused, or cut off. -/
def parsed (n : Nat) (text : List (Token × Nat)) (nCcalls : Nat) : Nest LexState :=
  match luaYParser n (start text nCcalls) with
  | .ok _ s => s
  | .error _ s => s

/-- No assignment of the text has more than `T` targets before its `=`. -/
def Targets (T : Nat) (text : List (Token × Nat)) : Prop := ∀ n nCcalls, (parsed n text nCcalls).chain ≤ T

/-- No more than `k` functions of the parser are ever active for the text. -/
def Nested (k : Nat) (text : List (Token × Nat)) : Prop := ∀ n nCcalls, (parsed n text nCcalls).peak ≤ k

theorem parsed_ran (T n : Nat) (text : List (Token × Nat)) (nCcalls : Nat) :
    Ran T (fun n => levelBound T n + 1) (start text nCcalls) (parsed n text nCcalls) := by
  have h := nests_luaYParser (T := T) n (start text nCcalls) (Nat.zero_le _)
  unfold parsed
  cases hr : luaYParser n (start text nCcalls) with
  | ok a s =>
    rw [hr] at h
    exact h.1
  | error e s =>
    rw [hr] at h
    exact h

theorem nested_of_targets {T : Nat} {text : List (Token × Nat)} (h : Targets T text) :
    Nested ((T + 11) * luaiMaxccalls) text := by
  intro n nCcalls
  have hbound := (parsed_ran T n text nCcalls).bound (h n nCcalls)
  have hmul : (T + 10) * (luaiMaxccalls - nCcalls) ≤ (T + 10) * luaiMaxccalls :=
    Nat.mul_le_mul_left _ (Nat.sub_le ..)
  have hmax : luaiMaxccalls = 200 := rfl
  have hsplit : (T + 11) * luaiMaxccalls = (T + 10) * luaiMaxccalls + luaiMaxccalls := Nat.succ_mul ..
  simp only [start, levelBound] at hbound
  omega

theorem targets_of_nested {k : Nat} {text : List (Token × Nat)} (h : Nested k text) : Targets k text :=
  fun n nCcalls => Nat.le_trans ((parsed_ran 0 n text nCcalls).counted ⟨Nat.le_refl _, Nat.le_refl _⟩) (h n nCcalls)

/-- The parser's functions are nested no deeper than a multiple of `LUAI_MAXCCALLS` where the lists of
targets have a bound, and only there; where a text is accepted, `nCcalls` is what it was. -/
theorem luaYParser_levels (texts : Set (List (Token × Nat))) :
    ((∃ c, ∀ text ∈ texts, Nested (c * luaiMaxccalls) text) ↔ ∃ T, ∀ text ∈ texts, Targets T text) ∧
      ∀ text ∈ texts, ∀ n nCcalls s, luaYParser n (start text nCcalls) = .ok () s → s.level = nCcalls := by
  refine ⟨⟨?_, ?_⟩, fun text _ n nCcalls s hs => ?_⟩
  · rintro ⟨c, hc⟩
    exact ⟨c * luaiMaxccalls, fun text ht => targets_of_nested (hc text ht)⟩
  · rintro ⟨T, hT⟩
    exact ⟨T + 11, fun text ht => nested_of_targets (hT text ht)⟩
  · have h := nests_luaYParser (T := 0) n (start text nCcalls) (Nat.zero_le _)
    rw [hs] at h
    exact h.2.2

/-! ## A long list of targets -/

section Text

variable {α : Type} {m : Parse α} {s : Nest LexState} {k : Nat}

/-- However a computation ends, a chain has had `k` functions. -/
def Chains (k : Nat) (r : EStateM.Result ParseError (Nest LexState) α) : Prop :=
  EndsIn r (fun _ s => k ≤ s.chain) fun _ s => k ≤ s.chain

theorem chains_of_nests {T d : Nat} {b : Nat → Nat} (h : Nests T d b m) (hd : d ≤ s.depth) (hk : k ≤ s.chain) :
    Chains k (m s) :=
  ends_mono (h s hd) (fun _ _ h => Nat.le_trans hk h.1.chain) fun _ _ h => Nat.le_trans hk h.chain

theorem chains_call (h : Chains k (m s.enter)) : Chains k (call m s) := by
  rw [call, run_bind_ok (run_modify Nest.enter s)]
  refine ends_bind h fun a s' hs' => ?_
  rw [run_bind_ok (run_modify Nest.leave s')]
  exact ends_pure hs'

theorem chains_run {β : Type} {f : α → Parse β} {a : α} {s' : Nest LexState} (hm : m s = .ok a s')
    (hf : Chains k (f a s')) : Chains k ((m >>= f) s) := by
  rw [run_bind_ok hm]
  exact hf

theorem chains_bind {β : Type} {T : Nat} {b : Nat → Nat} {f : α → Parse β} (h : Chains k (m s))
    (hf : ∀ a, Nests T 0 b (f a)) : Chains k ((m >>= f) s) :=
  ends_bind h fun a _ hs' => chains_of_nests (hf a) (Nat.zero_le _) hs'

/-- The scanner with the tokens to come, on the first line. -/
def ahead (t : Token) (tokens : List (Token × Nat)) : LexState := ⟨t, none, tokens, 1, 1⟩

def comma : Token := .ofChar ','

def name : Token := .reserved TK_NAME

/-- Where a name stands before a token that does not go on with it, `primaryexp` reads the name. -/
theorem run_primaryexp (subexpr : FuncState → Nat → Parse (Option BinOpr)) (n : Nat) (fs : FuncState)
    (t : Token) (tokens : List (Token × Nat)) (ht : t = comma ∨ t = .ofChar '=')
    (hs : s.state = ahead name ((t, 1) :: tokens)) :
    ∃ s', primaryexp subexpr (n + 1) fs s = .ok .variable s' ∧ s'.state = ahead t tokens ∧ s'.depth = s.depth ∧
      s'.chain = s.chain := by
  obtain ⟨ls, level, depth, peak, chain⟩ := s
  cases hs
  rcases ht with rfl | rfl
  · exact ⟨_, rfl, rfl, rfl, rfl⟩
  · exact ⟨_, rfl, rfl, rfl, rfl⟩

/-- `k` further targets, and a value. -/
def moreTargets : Nat → List (Token × Nat)
  | 0 => [(.ofChar '=', 1), (.reserved TK_NUMBER, 1), (.reserved TK_EOS, 1)]
  | k + 1 => (comma, 1) :: (name, 1) :: moreTargets k

/-- `a, a, .. a = 1`, with `k + 1` targets. -/
def targetsText (k : Nat) : List (Token × Nat) := (name, 1) :: moreTargets k

theorem moreTargets_cons (k : Nat) :
    ∃ t tokens, moreTargets k = (t, 1) :: tokens ∧ (t = comma ∨ t = .ofChar '=') := by
  cases k with
  | zero => exact ⟨_, _, rfl, .inr rfl⟩
  | succ k => exact ⟨_, _, rfl, .inl rfl⟩

theorem chains_assignment (n l : Nat) (fs : FuncState) {m : Nat} (hm : k < m) {nvars : Nat} {t : Token}
    {tokens : List (Token × Nat)} (ht : moreTargets k = (t, 1) :: tokens) (hs : s.state = ahead t tokens)
    (hd : nvars ≤ s.depth + 1) : Chains (nvars + k) (assignment (parsers l).2 (n + 1) fs m .variable nvars s) := by
  induction k generalizing m nvars t tokens s with
  | zero =>
    obtain ⟨m, rfl⟩ : ∃ m', m = m' + 1 := ⟨m - 1, by omega⟩
    have hsubexpr := (parsers_nests (T := nvars) l).2
    have hrest := nests_target hsubexpr (n := n + 1) fs m .variable nvars (fun n => Nat.le_succ _) fun nv =>
      nests_mono (nests_assignment hsubexpr fs m nv (nvars + 1) (Nat.le_refl _)) (Nat.le_refl _) fun n => by omega
    refine chains_call ?_
    rw [run_bind_ok (show chained nvars s.enter = _ from rfl)]
    exact chains_of_nests hrest hd (Nat.le_max_right ..)
  | succ k ih =>
    obtain ⟨m, rfl⟩ : ∃ m', m = m' + 1 := ⟨m - 1, by omega⟩
    obtain ⟨t', tokens', htail, ht'⟩ := moreTargets_cons k
    obtain ⟨rfl, rfl⟩ : t = comma ∧ tokens = (name, 1) :: (t', 1) :: tokens' := by
      rw [moreTargets, htail] at ht
      obtain ⟨hhead, hrest⟩ := List.cons.inj ht
      exact ⟨(Prod.mk.inj hhead).1.symm, hrest.symm⟩
    obtain ⟨ls, level, depth, peak, chain⟩ := s
    cases hs
    let s₁ : Nest LexState :=
      ⟨ahead comma ((name, 1) :: (t', 1) :: tokens'), level, depth + 1, max peak (depth + 1), max chain nvars⟩
    let s₂ : Nest LexState :=
      ⟨ahead name ((t', 1) :: tokens'), level, depth + 1, max peak (depth + 1), max chain nvars⟩
    obtain ⟨s', hprim, hstate, hdepth, -⟩ := @run_primaryexp s₂ (parsers l).2 n fs t' tokens' ht' rfl
    have hhead : (chained nvars : Parse Unit) (Nest.enter ⟨_, level, depth, peak, chain⟩) = .ok () s₁ := rfl
    have hcomma : testnext (.ofChar ',') s₁ = .ok true s₂ := rfl
    refine chains_call (chains_run hhead (ends_ite (fun _ => ?_) fun hne => absurd rfl hne))
    refine chains_run hcomma (chains_run hprim ?_)
    have hnext := @ih s' m (by omega) (nvars + 1) t' tokens' htail hstate (by
      rw [hdepth]
      exact Nat.succ_le_succ hd)
    rwa [Nat.add_assoc, Nat.add_comm 1 k] at hnext

theorem chains_counting {limit : Nat} {beyond : ParseError} (hlevel : s.level < limit) (h : Chains k (m s.up)) :
    Chains k (counting limit beyond m s) := by
  rw [counting, run_bind_ok (run_modify Nest.up s), run_get]
  refine ends_ite (fun hpast => absurd hlevel (Nat.not_lt.mpr (Nat.le_of_lt_succ hpast))) fun _ => ?_
  refine ends_bind h fun a s' hs' => ?_
  rw [run_bind_ok (run_modify Nest.down s')]
  exact ends_pure hs'

theorem chains_exprstat (n l : Nat) (hn : k ≤ n) (fs : FuncState) (hs : s.state = ahead name (moreTargets k)) :
    Chains (k + 1) (exprstat (parsers l).2 (n + 1) fs s) := by
  obtain ⟨t, tokens, htail, ht⟩ := moreTargets_cons k
  rw [htail] at hs
  obtain ⟨s', hprim, hstate, hdepth, -⟩ := @run_primaryexp s.enter (parsers l).2 n fs t tokens ht hs
  refine chains_call (chains_run hprim (ends_ite (fun heq => absurd heq (by decide)) fun _ => ?_))
  have hassign := @chains_assignment s' k n l fs _ (Nat.lt_succ_of_le hn) 1 t tokens htail hstate (Nat.le_add_left ..)
  rwa [Nat.add_comm 1 k] at hassign

/-- A list of targets at the beginning of a chunk. -/
theorem chains_chunk (n : Nat) (hn : k ≤ n) (fs : FuncState) (hs : s.state = ahead name (moreTargets k))
    (hlevel : s.level < luaiMaxccalls) : Chains (k + 1) ((parsers (n + 2)).1 fs s) := by
  obtain ⟨hchunk, hsubexpr⟩ := parsers_nests (T := 0) (n + 1)
  have htoken : ∀ s' : Nest LexState, s'.state = s.state → token s' = .ok name s' := by
    intro s' h
    rw [show token s' = .ok s'.state.t s' from rfl, h, hs]
    rfl
  have hstat : Chains (k + 1) (statement (parsers (n + 1)).1 (parsers (n + 1)).2 (n + 1) fs s.enter.up) := by
    refine chains_call (chains_run rfl (chains_run (htoken _ rfl) ?_))
    exact chains_bind (T := 0) (b := fun _ => 0) (chains_exprstat n (n + 1) hn fs hs) fun _ => nests_pure _
  have hpass := nests_repeats (nests_pass (d := 0) (n := n + 1) hchunk hsubexpr fs) ParseError.fuel n
  refine chains_call (chains_counting hlevel ?_)
  rw [repeats]
  refine chains_bind (chains_run (htoken s.enter.up rfl) (ends_ite (fun hfollow => absurd hfollow (by decide))
    fun _ => ?_)) fun again => nests_ite hpass (nests_pure _)
  exact chains_bind (T := 0) (b := fun _ => 0) hstat fun _ => nests_bind (nests_testnext _) fun _ => nests_pure _

/-- For every bound there is an assignment that nests more functions. -/
theorem targetsText_deep (k : Nat) : ¬ Nested k (targetsText k) := by
  intro h
  have hle := targets_of_nested h (k + 2) 0
  let s : Nest LexState := { start (targetsText k) 0 with depth := 1, peak := 1, state := ahead name (moreTargets k) }
  have hnext : next (start (targetsText k) 0).enter = .ok () s := rfl
  have hchunk := chains_chunk k (Nat.le_refl k) ⟨true, false⟩ (s := s) rfl (show 0 < luaiMaxccalls by decide)
  have hall : Chains (k + 1) (luaYParser (k + 2) (start (targetsText k) 0)) :=
    chains_call (chains_run hnext (chains_bind (T := 0) (b := fun _ => 0) hchunk fun _ => nests_check _))
  unfold parsed at hle
  cases hr : luaYParser (k + 2) (start (targetsText k) 0) with
  | ok a s' =>
    rw [hr] at hall hle
    exact absurd hall (Nat.not_le.mpr (Nat.lt_succ_of_le hle))
  | error e s' =>
    rw [hr] at hall hle
    exact absurd hall (Nat.not_le.mpr (Nat.lt_succ_of_le hle))

/-- No multiple of `LUAI_MAXCCALLS` is enough for all texts. -/
theorem luaYParser_targetsText : ¬ ∃ c, ∀ text, Nested (c * luaiMaxccalls) text := fun ⟨c, hc⟩ =>
  targetsText_deep (c * luaiMaxccalls) (hc _)

end Text

end UgmeeLua.Levels
